/-
# Lock modes and the conflict table

The multi-granularity lock of `lock/mgl`: the modes of `lock_defines.h`, the results an
`MGLock` can hold, and `isConflict` of `mgl_mgr.cpp`, which tests a new mode against a
`uint16_t` bitmask of existing modes through `conflictTable`.

* `isConflict_iff` : a mask conflicts with a mode iff some mode whose bit is set does;
* `isConflict_single_symm` : the table is symmetric, so "conflicts" is a relation between
  two modes and not only between a new request and an existing one.
-/
import Mathlib.Logic.Basic

namespace NovaDb.Mgl

/-! ## Modes and results -/

/-- `enum class LockMode`; the count `LOCK_MODE_NUM` is not a mode. -/
inductive LockMode where
  | LOCK_NONE
  | LOCK_IS
  | LOCK_IX
  | LOCK_S
  | LOCK_X
  deriving DecidableEq, Repr

/-- `enum class LockRes`; the count `LOCKRES_NUM` is not a result. -/
inductive LockRes where
  | LOCKRES_OK
  | LOCKRES_WAIT
  | LOCKRES_TIMEOUT
  | LOCKRES_DEADLOCK
  | LOCKRES_UNINITED
  deriving DecidableEq, Repr

open LockMode

/-- `enum2Int` on a `LockMode`: its `uint16_t` value. -/
def enum2Int : LockMode → Nat
  | LOCK_NONE => 0
  | LOCK_IS => 1
  | LOCK_IX => 2
  | LOCK_S => 3
  | LOCK_X => 4

/-- `conflictTable[mode]`: bit `m` is set when a new request of `mode` conflicts with an
existing request of mode `m`. -/
def conflictTable : LockMode → Nat
  | LOCK_NONE => 0
  | LOCK_IS => 1 <<< enum2Int LOCK_X
  | LOCK_IX => (1 <<< enum2Int LOCK_S) ||| (1 <<< enum2Int LOCK_X)
  | LOCK_S => (1 <<< enum2Int LOCK_IX) ||| (1 <<< enum2Int LOCK_X)
  | LOCK_X => (1 <<< enum2Int LOCK_IS) ||| (1 <<< enum2Int LOCK_IX) |||
      (1 <<< enum2Int LOCK_S) ||| (1 <<< enum2Int LOCK_X)

/-- `isConflict(modes, mode)`: does a new request of `mode` conflict with the existing
modes whose bits are set in `modes`? -/
def isConflict (modes : Nat) (mode : LockMode) : Bool :=
  conflictTable mode &&& modes != 0

/-! ## Reading the bitmask test -/

/-- No mode conflicts with an empty mask. -/
@[simp] theorem isConflict_zero (m : LockMode) : isConflict 0 m = false := by
  simp [isConflict]

/-- The single-mode mask of `m'` conflicts with `m` iff the table has bit `m'` for `m`. -/
theorem isConflict_single (m m' : LockMode) :
    isConflict (1 <<< enum2Int m') m = (conflictTable m).testBit (enum2Int m') := by
  cases m <;> cases m' <;> decide

/-- **The conflict table is symmetric.** -/
theorem isConflict_single_symm (a b : LockMode) :
    isConflict (1 <<< enum2Int a) b = isConflict (1 <<< enum2Int b) a := by
  cases a <;> cases b <;> decide

/-- A bitwise and is non-zero iff the two masks share a bit. -/
theorem and_ne_zero_iff (a b : Nat) : a &&& b ≠ 0 ↔ ∃ k, a.testBit k ∧ b.testBit k := by
  constructor
  · intro h
    obtain ⟨k, hk⟩ := Nat.ne_zero_implies_bit_true h
    exact ⟨k, by simpa using hk⟩
  · rintro ⟨k, ha, hb⟩ h
    simpa [h, ha, hb] using Nat.testBit_and a b k

/-- **Reading `isConflict`.** A mask conflicts with `m` iff one of its set bits is the
bit of a mode `m` conflicts with. -/
theorem isConflict_iff (modes : Nat) (m : LockMode) :
    isConflict modes m = true ↔ ∃ k, modes.testBit k ∧ (conflictTable m).testBit k := by
  rw [isConflict, bne_iff_ne, ne_eq, ← ne_eq, and_ne_zero_iff]
  exact exists_congr fun _ => and_comm

end NovaDb.Mgl
