/-
# Pessimistic key locks

`PessimisticShard` of `storage/pessimistic.cpp` keeps the set of locked keys under a mutex;
`lock` checks, in the debug build, that the key is free and inserts it, and `unlock` checks
that it is held and erases it. `PessimisticMgr` owns `num` shards.

The shard is one binary lock per key, the keys independent of each other:
`PessimisticShard.run_eq_ok_iff` says that a list of calls passes exactly when, for each key,
its own calls alternate from its current status (a lock on a free key, an unlock on a held
one), and that the shard then holds the keys whose last call was a lock.
-/
import Mathlib.Data.Finset.Basic

namespace NovaDb

/-- `PessimisticShard`: the keys of `_set`. -/
@[ext]
structure PessimisticShard where
  set : Finset String

namespace PessimisticShard

/-- The shard that `PessimisticShard()` builds. -/
def init : PessimisticShard := ⟨∅⟩

/-- `PessimisticShard::isLocked(k)`. -/
def isLocked (sh : PessimisticShard) (k : String) : Bool := decide (k ∈ sh.set)

/-- `PessimisticShard::lock(k)`: a key already in `_set` fails the `INVARIANT_D`. -/
def lock (sh : PessimisticShard) (k : String) : Except String PessimisticShard :=
  if k ∈ sh.set then .error "INVARIANT failed:_set.find(k) == _set.end()"
  else .ok ⟨insert k sh.set⟩

/-- `PessimisticShard::unlock(k)`: a key outside `_set` fails the `INVARIANT_D`. -/
def unlock (sh : PessimisticShard) (k : String) : Except String PessimisticShard :=
  if k ∈ sh.set then .ok ⟨sh.set.erase k⟩
  else .error "INVARIANT failed:_set.find(k) != _set.end()"

end PessimisticShard

/-- `PessimisticMgr`: the shards of `_data`. -/
structure PessimisticMgr where
  data : List PessimisticShard

namespace PessimisticMgr

/-- `PessimisticMgr(num)`: `num` empty shards. -/
def init (num : Nat) : PessimisticMgr := ⟨List.replicate num PessimisticShard.init⟩

/-- `PessimisticMgr::getShard(n)`; `_data[n]` past the end is undefined, here `none`. -/
def getShard (m : PessimisticMgr) (n : Nat) : Option PessimisticShard := m.data[n]?

/-- Shard `n` of a new manager exists exactly below `num`, and is empty. -/
theorem getShard_init (num n : Nat) :
    (init num).getShard n = if n < num then some PessimisticShard.init else none := by
  simp only [getShard, init, List.getElem?_replicate]

end PessimisticMgr

/-! ## Runs of calls on one shard -/

/-- A call on a shard. -/
inductive KeyCall where
  | lock (k : String)
  | unlock (k : String)

/-- The key a call is on. -/
def KeyCall.key : KeyCall → String
  | .lock k => k
  | .unlock k => k

namespace PessimisticShard

/-- One call. -/
def call (sh : PessimisticShard) : KeyCall → Except String PessimisticShard
  | .lock k => sh.lock k
  | .unlock k => sh.unlock k

/-- The calls of a list, up to the first that fails. -/
def run (sh : PessimisticShard) : List KeyCall → Except String PessimisticShard
  | [] => .ok sh
  | c :: rest => do
    let sh ← sh.call c
    sh.run rest

end PessimisticShard

/-- A call seen from its key alone: whether the key is held after it, if the call passes. -/
def keyStep (held : Bool) : KeyCall → Option Bool
  | .lock _ => if held then none else some true
  | .unlock _ => if held then some false else none

/-- The calls on one key, from `held`. -/
def keyRun (held : Bool) : List KeyCall → Option Bool
  | [] => some held
  | c :: rest => (keyStep held c).bind fun held => keyRun held rest

namespace PessimisticShard

/-- A call passes exactly when it passes on its key, and then changes that key alone. -/
theorem call_spec (sh : PessimisticShard) (c : KeyCall) :
    (∃ b, keyStep (decide (c.key ∈ sh.set)) c = some b ∧ ∃ sh₁, sh.call c = .ok sh₁ ∧
      ∀ k, decide (k ∈ sh₁.set) = if c.key = k then b else decide (k ∈ sh.set)) ∨
    (keyStep (decide (c.key ∈ sh.set)) c = none ∧ ∃ e, sh.call c = .error e) := by
  cases c with
  | lock k =>
    by_cases h : k ∈ sh.set
    · exact .inr ⟨by simp [keyStep, KeyCall.key, h], _, if_pos h⟩
    · refine .inl ⟨true, by simp [keyStep, KeyCall.key, h], _, if_neg h, fun k' => ?_⟩
      by_cases e : k = k' <;> simp [KeyCall.key, e, Ne.symm]
  | unlock k =>
    by_cases h : k ∈ sh.set
    · refine .inl ⟨false, by simp [keyStep, KeyCall.key, h], _, if_pos h, fun k' => ?_⟩
      by_cases e : k = k' <;> simp [KeyCall.key, e, Ne.symm]
    · exact .inr ⟨by simp [keyStep, KeyCall.key, h], _, if_neg h⟩

theorem run_cons_of_call {sh sh₁ : PessimisticShard} {c : KeyCall} (rest : List KeyCall)
    (h : sh.call c = .ok sh₁) : sh.run (c :: rest) = sh₁.run rest := by
  rw [run, h]; rfl

theorem run_cons_of_call_error {sh : PessimisticShard} {c : KeyCall} {e : String}
    (rest : List KeyCall) (h : sh.call c = .error e) : sh.run (c :: rest) = .error e := by
  rw [run, h]; rfl

/-- **Each key is a binary lock of its own.** A list of calls passes and leaves the shard
`sh'` exactly when, for every key, the calls on it alternate from its current status, a lock
finding it free and an unlock finding it held, and end with the status it has in `sh'`. -/
theorem run_eq_ok_iff (sh sh' : PessimisticShard) (calls : List KeyCall) :
    sh.run calls = .ok sh' ↔ ∀ k,
      keyRun (decide (k ∈ sh.set)) (calls.filter (·.key = k)) = some (decide (k ∈ sh'.set)) := by
  induction calls generalizing sh with
  | nil =>
    simp only [run, Except.ok.injEq, List.filter_nil, keyRun, Option.some.injEq,
      decide_eq_decide, PessimisticShard.ext_iff, Finset.ext_iff]
  | cons c rest ih =>
    rcases call_spec sh c with ⟨b, hb, sh₁, hc, hmem⟩ | ⟨hn, e, hc⟩
    · rw [run_cons_of_call rest hc, ih]
      refine forall_congr' fun k => ?_
      by_cases e : c.key = k
      · rw [List.filter_cons_of_pos (by simpa using e), keyRun, ← e, hb, hmem, if_pos rfl]; rfl
      · rw [List.filter_cons_of_neg (by simpa using e), hmem, if_neg e]
    · rw [run_cons_of_call_error rest hc]
      refine ⟨fun h => (by cases h), fun h => ?_⟩
      have := h c.key
      rw [List.filter_cons_of_pos (by simp), keyRun, hn] at this
      cases this

end PessimisticShard

end NovaDb
