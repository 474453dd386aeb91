/-
# `easyCopy`

The three `easyCopy` templates of `utils/string.h` copy the bytes of a `T` into a byte
vector at `*pos`, the bytes of an array of `len` of them, and the bytes of a `T` out of a
string at `*pos`, and move `*pos` past what they copy. A `T` is its `sizeof(T)` bytes here.
A copy past the end of a buffer is undefined behaviour, `none` in the model.

* `easyCopyReadAll_easyCopyAll` : values written one after another from `pos` are read back,
  in order, from `pos`; `easyCopyAll_cons_eq` says what the buffer holds after the writes;
* `easyCopyArray_eq_easyCopyAll` : the array copy writes what a copy of each of its values
  writes, except when `*pos + len ≤ size < *pos + len * sizeof(T)`: it grows the buffer only
  when `*pos + len` passes its end, and there it writes past the end;
* `easyCopyReadAll_eq_none_iff` : reads one after another from within a string read past its
  end exactly when the values do not fit; the check `size < *pos` never stops them.
-/
import Mathlib

namespace NovaDb

/-! ## Buffers -/

/-- `std::vector<byte>::resize(n)`: the first `n` bytes, and zero bytes up to `n`. -/
def resize (buf : List UInt8) (n : Nat) : List UInt8 :=
  buf.take n ++ List.replicate (n - buf.length) 0

/-- `buf` with `src` written over it from `pos`. -/
def overwrite (buf : List UInt8) (pos : Nat) (src : List UInt8) : List UInt8 :=
  buf.take pos ++ src ++ buf.drop (pos + src.length)

/-- `std::copy` of `src` to `buf.begin() + pos`; `none` when it writes past the end. -/
def copyAt (buf : List UInt8) (pos : Nat) (src : List UInt8) : Option (List UInt8) :=
  if pos + src.length ≤ buf.length then some (overwrite buf pos src) else none

/-- `buf`, with zero bytes appended up to `n` bytes. -/
def pad (buf : List UInt8) (n : Nat) : List UInt8 := buf ++ List.replicate (n - buf.length) 0

@[simp]
theorem length_resize (buf : List UInt8) (n : Nat) : (resize buf n).length = n := by
  simp only [resize, List.length_append, List.length_take, List.length_replicate]; omega

@[simp]
theorem length_pad (buf : List UInt8) (n : Nat) : (pad buf n).length = max buf.length n := by
  simp only [pad, List.length_append, List.length_replicate]; omega

theorem length_overwrite {buf src : List UInt8} {pos : Nat} (h : pos + src.length ≤ buf.length) :
    (overwrite buf pos src).length = buf.length := by
  simp only [overwrite, List.length_append, List.length_take, List.length_drop]; omega

theorem resize_eq_pad {buf : List UInt8} {n : Nat} (h : buf.length ≤ n) :
    resize buf n = pad buf n := by
  rw [resize, pad, List.take_of_length_le h]

theorem pad_of_le {buf : List UInt8} {n : Nat} (h : n ≤ buf.length) : pad buf n = buf := by
  simp [pad, Nat.sub_eq_zero_of_le h]

/-- Padding twice pads once, to the larger size. -/
theorem pad_pad (buf : List UInt8) {n m : Nat} (h : n ≤ m) : pad (pad buf n) m = pad buf m := by
  simp only [pad, List.length_append, List.length_replicate, List.append_assoc,
    ← List.replicate_add]
  congr 2
  omega

/-- Padding after a write in bounds pads under it. -/
theorem pad_overwrite {buf src : List UInt8} {pos : Nat} (h : pos + src.length ≤ buf.length)
    (m : Nat) : pad (overwrite buf pos src) m = overwrite (pad buf m) pos src := by
  rw [pad, length_overwrite h]
  simp only [pad, overwrite, List.append_assoc,
    List.take_append_of_le_length (show pos ≤ buf.length by omega),
    List.drop_append_of_le_length h]

/-- Two writes side by side are one write of both. -/
theorem overwrite_overwrite {buf x y : List UInt8} {pos : Nat}
    (h : pos + x.length + y.length ≤ buf.length) :
    overwrite (overwrite buf pos x) (pos + x.length) y = overwrite buf pos (x ++ y) := by
  have hA : (buf.take pos ++ x).length = pos + x.length := by simp; omega
  have hD : (buf.take pos ++ x ++ buf.drop (pos + x.length)).drop (pos + x.length + y.length) =
      buf.drop (pos + x.length + y.length) := by
    rw [List.drop_append_eq_append_drop, List.drop_eq_nil_of_le (by omega), hA, List.drop_drop]
    simp only [List.nil_append]
    congr 1
    omega
  simp only [overwrite] at hD ⊢
  rw [List.take_left' hA, hD, List.length_append, ← Nat.add_assoc]
  simp only [List.append_assoc]

/-- What follows `pos` after a write at `pos` starts with what was written. -/
theorem drop_overwrite {buf src : List UInt8} {pos : Nat} (h : pos ≤ buf.length) :
    (overwrite buf pos src).drop pos = src ++ buf.drop (pos + src.length) := by
  rw [overwrite, List.append_assoc, List.drop_left' (by simp; omega)]

/-! ## The three templates -/

/-- `easyCopy(buf, pos, element)`, `element` the `sizeof(T)` bytes of the `T`: the buffer, the
new `*pos`, and the result. -/
def easyCopy (buf : List UInt8) (pos : Nat) (element : List UInt8) :
    Option (List UInt8 × Nat × Nat) :=
  let buf := if pos + element.length > buf.length then resize buf (pos + element.length) else buf
  (copyAt buf pos element).map fun buf => (buf, pos + element.length, element.length)

/-- `easyCopy(buf, pos, array, len)` for a `T` of `w` bytes, `array` the bytes of the array. -/
def easyCopyArray (w : Nat) (buf : List UInt8) (pos : Nat) (array : List UInt8) (len : Nat) :
    Option (List UInt8 × Nat × Nat) :=
  let buf := if pos + len > buf.length then resize buf (pos + len * w) else buf
  (copyAt buf pos (array.take (len * w))).map fun buf => (buf, pos + len * w, len * w)

/-- `easyCopy(dest, buf, pos)` for a `T` of `w` bytes: the bytes copied to `*dest` (`none` when
it is left alone), the new `*pos`, and the result. -/
def easyCopyRead (w : Nat) (buf : List UInt8) (pos : Nat) :
    Option (Option (List UInt8) × Nat × Nat) :=
  if buf.length < pos then some (none, pos, 0)
  else if pos + w ≤ buf.length then some (some ((buf.drop pos).take w), pos + w, w)
  else none

/-- A write of one value never leaves the buffer: it pads the buffer with zero bytes up to the
end of the value, and writes the value at `pos`. -/
theorem easyCopy_eq (buf : List UInt8) (pos : Nat) (element : List UInt8) :
    easyCopy buf pos element =
      some (overwrite (pad buf (pos + element.length)) pos element, pos + element.length,
        element.length) := by
  have hfit : pos + element.length ≤ (pad buf (pos + element.length)).length := by
    rw [length_pad]; omega
  have hbuf : (if pos + element.length > buf.length then resize buf (pos + element.length)
      else buf) = pad buf (pos + element.length) := by
    split
    · exact resize_eq_pad (by omega)
    · exact (pad_of_le (by omega)).symm
  simp only [easyCopy, hbuf, copyAt, if_pos hfit, Option.map_some']

/-! ## Writing values and reading them back -/

/-- `easyCopy(buf, pos, x)` for each `x` of a list, in order: the buffer and the new `*pos`. -/
def easyCopyAll (buf : List UInt8) (pos : Nat) : List (List UInt8) → Option (List UInt8 × Nat)
  | [] => some (buf, pos)
  | x :: xs => (easyCopy buf pos x).bind fun r => easyCopyAll r.1 r.2.1 xs

/-- `easyCopy(dest, buf, pos)` for a `T` of each width of a list, in order: the bytes copied to
each `*dest`, and the new `*pos`. -/
def easyCopyReadAll (buf : List UInt8) : Nat → List Nat → Option (List (Option (List UInt8)) × Nat)
  | pos, [] => some ([], pos)
  | pos, w :: ws => (easyCopyRead w buf pos).bind fun r =>
    (easyCopyReadAll buf r.2.1 ws).map fun rs => (r.1 :: rs.1, rs.2)

/-- Writes of one value or more one after another from `pos` pad the buffer up to the end of
the last value, and put the values side by side at `pos`. -/
theorem easyCopyAll_cons_eq :
    ∀ (buf : List UInt8) (pos : Nat) (x : List UInt8) (xs : List (List UInt8)),
      easyCopyAll buf pos (x :: xs) =
        some (overwrite (pad buf (pos + (x :: xs).flatten.length)) pos (x :: xs).flatten,
          pos + (x :: xs).flatten.length)
  | buf, pos, x, [] => by simp [easyCopyAll, easyCopy_eq]
  | buf, pos, x, y :: ys => by
    have hx : pos + x.length ≤ (pad buf (pos + x.length)).length := by rw [length_pad]; omega
    have hall : pos + x.length + (y :: ys).flatten.length ≤
        (pad buf (pos + x.length + (y :: ys).flatten.length)).length := by rw [length_pad]; omega
    rw [easyCopyAll, easyCopy_eq, Option.some_bind]
    dsimp only
    rw [easyCopyAll_cons_eq, pad_overwrite hx, pad_pad _ (by omega),
      overwrite_overwrite hall]
    simp only [List.flatten_cons, List.length_append, Nat.add_assoc]

/-- Reads from `pos` of the widths of values that follow `pos` give the values back. -/
theorem easyCopyReadAll_of_prefix (buf : List UInt8) :
    ∀ (pos : Nat) (xs : List (List UInt8)), pos ≤ buf.length → xs.flatten <+: buf.drop pos →
      easyCopyReadAll buf pos (xs.map List.length) = some (xs.map some, pos + xs.flatten.length)
  | pos, [], _, _ => rfl
  | pos, x :: xs, hpos, ⟨rest, hrest⟩ => by
    have hlen := congrArg List.length hrest
    simp only [List.flatten_cons, List.length_append, List.length_drop] at hlen
    have hread : easyCopyRead x.length buf pos = some (some x, pos + x.length, x.length) := by
      rw [easyCopyRead, if_neg (by omega), if_pos (by omega), ← hrest, List.flatten_cons,
        List.append_assoc, List.take_left' rfl]
    have hnext : xs.flatten <+: buf.drop (pos + x.length) :=
      ⟨rest, by rw [← List.drop_drop, ← hrest, List.flatten_cons, List.append_assoc,
        List.drop_left' rfl]⟩
    simp only [List.map_cons, easyCopyReadAll, hread, Option.some_bind,
      easyCopyReadAll_of_prefix buf _ xs (by omega) hnext, Option.map_some', List.flatten_cons,
      List.length_append, Nat.add_assoc]

/-- **Round trip.** Values written one after another from `pos`, into any buffer, are read
back in order from `pos`, and the reads end where the writes did. -/
theorem easyCopyReadAll_easyCopyAll (buf : List UInt8) (pos : Nat) (xs : List (List UInt8)) :
    ∃ buf' pos', easyCopyAll buf pos xs = some (buf', pos') ∧
      easyCopyReadAll buf' pos (xs.map List.length) = some (xs.map some, pos') := by
  cases xs with
  | nil => exact ⟨buf, pos, rfl, rfl⟩
  | cons x xs =>
    have hfit : pos + (x :: xs).flatten.length ≤
        (pad buf (pos + (x :: xs).flatten.length)).length := by rw [length_pad]; omega
    refine ⟨_, _, easyCopyAll_cons_eq buf pos x xs, easyCopyReadAll_of_prefix _ _ _ ?_ ?_⟩
    · rw [length_overwrite hfit]; omega
    · rw [drop_overwrite (by omega)]
      exact List.prefix_append _ _

/-! ## Where the copies leave the buffer -/

/-- Values of one width `w` take `w` bytes each. -/
theorem length_flatten_of_width {w : Nat} :
    ∀ xs : List (List UInt8), (∀ x ∈ xs, x.length = w) → xs.flatten.length = xs.length * w
  | [], _ => by simp
  | x :: xs, h => by
    rw [List.flatten_cons, List.length_append, h x (.head _),
      length_flatten_of_width xs fun y hy => h y (.tail _ hy), List.length_cons, Nat.succ_mul]
    omega

/-- **The array copy against the copies of its values.** For `len ≥ 1` values of `w ≥ 1`
bytes, the array copy writes what `len` copies of one value each write, and returns their
size, except when `*pos + len` is within the buffer, so that the buffer is not grown, but
`*pos + len * w` is not: there it writes past the end. -/
theorem easyCopyArray_eq_easyCopyAll {w : Nat} (hw : 0 < w) (buf : List UInt8) (pos : Nat)
    {xs : List (List UInt8)} (hxs : xs ≠ []) (hlen : ∀ x ∈ xs, x.length = w) :
    easyCopyArray w buf pos xs.flatten xs.length =
      if pos + xs.length ≤ buf.length ∧ buf.length < pos + xs.length * w then none
      else (easyCopyAll buf pos xs).map fun r => (r.1, r.2, xs.length * w) := by
  have hflat := length_flatten_of_width xs hlen
  have hle : xs.length ≤ xs.length * w := Nat.le_mul_of_pos_right _ hw
  obtain ⟨x, xs', rfl⟩ := List.exists_cons_of_ne_nil hxs
  rw [easyCopyAll_cons_eq, Option.map_some', easyCopyArray,
    List.take_of_length_le (le_of_eq hflat)]
  dsimp only
  rw [hflat]
  split
  · -- grown to `*pos + len * w`, where every value fits
    rw [resize_eq_pad (by omega), if_neg (by omega), copyAt, if_pos (by rw [length_pad]; omega),
      Option.map_some']
  · by_cases hfit : pos + (x :: xs').length * w ≤ buf.length
    · rw [copyAt, if_pos (by rw [hflat]; exact hfit), if_neg (by omega), pad_of_le hfit,
        Option.map_some']
    · rw [copyAt, if_neg (by rw [hflat]; exact hfit), if_pos (by omega), Option.map_none']

/-- Two `uint32_t` copied into a buffer of four bytes from its start: past the end. -/
theorem easyCopyArray_eq_easyCopyAll_two_uint32 :
    0 < 4 ∧ [[1, 0, 0, 0], [2, 0, 0, 0]] ≠ ([] : List (List UInt8)) ∧
      (∀ x ∈ [[1, 0, 0, 0], [2, 0, 0, 0]], List.length (α := UInt8) x = 4) ∧
      easyCopyArray 4 (List.replicate 4 0) 0 [[1, 0, 0, 0], [2, 0, 0, 0]].flatten
          [[1, 0, 0, 0], [2, 0, 0, 0]].length =
        if 0 + [[1, 0, 0, 0], [2, 0, 0, 0]].length ≤ (List.replicate 4 (0 : UInt8)).length ∧
            (List.replicate 4 (0 : UInt8)).length < 0 + [[1, 0, 0, 0], [2, 0, 0, 0]].length * 4
          then none
        else (easyCopyAll (List.replicate 4 0) 0 [[1, 0, 0, 0], [2, 0, 0, 0]]).map
          fun r => (r.1, r.2, [[1, 0, 0, 0], [2, 0, 0, 0]].length * 4) :=
  ⟨by decide, by decide, by decide, easyCopyArray_eq_easyCopyAll (by decide) _ _ (by decide) (by decide)⟩

/-- **A run of reads overruns exactly when the values do not fit.** Reads of values of the
widths `ws`, one after another from a position within the string, read past its end exactly
when the widths add up past the end: `*pos` never passes the end before the read that
overruns, so the check `buf.size() < *pos` never stops it. -/
theorem easyCopyReadAll_eq_none_iff (buf : List UInt8) :
    ∀ (pos : Nat) (ws : List Nat), pos ≤ buf.length →
      (easyCopyReadAll buf pos ws = none ↔ buf.length < pos + ws.sum)
  | pos, [], hpos => by simp only [easyCopyReadAll, reduceCtorEq, List.sum_nil, false_iff]; omega
  | pos, w :: ws, hpos => by
    by_cases hfit : pos + w ≤ buf.length
    · have hread : easyCopyRead w buf pos = some (some ((buf.drop pos).take w), pos + w, w) := by
        rw [easyCopyRead, if_neg (by omega), if_pos hfit]
      rw [easyCopyReadAll, hread, Option.some_bind, Option.map_eq_none',
        easyCopyReadAll_eq_none_iff buf (pos + w) ws hfit, List.sum_cons, Nat.add_assoc]
    · have hread : easyCopyRead w buf pos = none := by
        rw [easyCopyRead, if_neg (by omega), if_neg hfit]
      rw [easyCopyReadAll, hread, Option.none_bind, List.sum_cons]
      exact iff_of_true rfl (by omega)

/-- Two `uint32_t` read from a string of six bytes. -/
theorem easyCopyReadAll_eq_none_iff_two_uint32 :
    0 ≤ (List.replicate 6 (0 : UInt8)).length ∧
      (easyCopyReadAll (List.replicate 6 0) 0 [4, 4] = none ↔
        (List.replicate 6 (0 : UInt8)).length < 0 + [4, 4].sum) :=
  ⟨by decide, easyCopyReadAll_eq_none_iff _ _ _ (by decide)⟩

end NovaDb
