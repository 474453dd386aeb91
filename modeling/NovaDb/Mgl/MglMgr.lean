/-
# The lock manager

`LockSchedCtx`, `MGLockMgr` and the `MGLock` calls into them, from `mgl_mgr.cpp` and
`mgl.cpp`. A target's `LockSchedCtx` keeps the granted locks in `_runningList` and the
waiting ones in `_pendingList`, a count per mode of each list, and a `uint16_t` bitmask
of the modes whose count is non-zero. `MGLockMgr` keeps one context per target in the
map of shard `hash % SHARD_NUM`.

This is the debug build (`novadb_DEBUG`), where `INVARIANT_D` is `INVARIANT`: a failed
check ends the call in an error carrying the checked expression. So does an `erase` at an
iterator that is not a node of the list, which the source leaves undefined. A
`std::list<MGLock*>` is a list of nodes, each with an address taken from `nextAddr`, and
an iterator is such an address. `SHARD_NUM` (from the missing `mgl_mgr.h`) and
`std::hash<std::string>` are parameters.

The system takes `Action` steps: `MGLock::lock` and `MGLock::unlock`, each atomic under
its shard's mutex. `MglState.arrival` and `MglState.clock` are ghost fields that record
the order of the `MGLockMgr::lock` calls; no code reads them.
-/
import NovaDb.Mgl.LockDefines
import Mathlib.Logic.Function.Basic

namespace NovaDb.Mgl

open LockMode LockRes

/-! ## Objects -/

/-- The fields of an `MGLock` that the lock manager reads or writes: `_target`,
`_targetHash`, `_mode`, `_res` and `_resIter`, with `none` for `_dummyList.end()`. -/
structure MGLock where
  target : String
  targetHash : Nat
  mode : LockMode
  res : LockRes
  resIter : Option Nat

/-- `MGLock(mgr)`. -/
def MGLock.init : MGLock := ⟨"", 0, LOCK_NONE, LOCKRES_UNINITED, none⟩

/-- A node of a `std::list<MGLock*>`: its address and the `_id` of its `MGLock`. -/
structure ListNode where
  addr : Nat
  core : Nat
  deriving DecidableEq

/-- `LockSchedCtx`; `_runningRefCnt` and `_pendingRefCnt` are indexed by mode. -/
structure LockSchedCtx where
  runningModes : Nat
  pendingModes : Nat
  runningRefCnt : LockMode → Nat
  pendingRefCnt : LockMode → Nat
  runningList : List ListNode
  pendingList : List ListNode

/-- `LockSchedCtx()`. -/
def LockSchedCtx.init : LockSchedCtx := ⟨0, 0, fun _ => 0, fun _ => 0, [], []⟩

/-- The maps of the shards of an `MGLockMgr`, the `MGLock` objects by `_id`, the next free
list-node address, and the ghost arrival order. -/
structure MglState where
  shards : Nat → String → Option LockSchedCtx
  cores : Nat → MGLock
  nextAddr : Nat
  clock : Nat
  arrival : Nat → Nat

/-- No context, every `MGLock` freshly built. -/
def MglState.init : MglState := ⟨fun _ _ => none, fun _ => MGLock.init, 0, 0, fun _ => 0⟩

/-- `core->setLockResult(res, iter)`. -/
def MglState.setLockResult (s : MglState) (core : Nat) (res : LockRes) (iter : Nat) :
    MglState :=
  { s with cores := Function.update s.cores core { s.cores core with res, resIter := some iter } }

/-- `core->releaseLockResult()`. -/
def MglState.releaseLockResult (s : MglState) (core : Nat) : MglState :=
  let lk := { s.cores core with res := LOCKRES_UNINITED, resIter := none }
  { s with cores := Function.update s.cores core lk }

/-- A node for `core` at a fresh address, as `list.insert(list.end(), core)` allocates. -/
def MglState.newNode (s : MglState) (core : Nat) : ListNode × MglState :=
  (⟨s.nextAddr, core⟩, { s with nextAddr := s.nextAddr + 1 })

/-- `list.erase(it)`; undefined unless `it` is a node of the list. -/
def eraseIter (l : List ListNode) : Option Nat → Except String (List ListNode)
  | some a =>
    if l.any (·.addr == a) then .ok (l.eraseP (·.addr == a))
    else .error "erase: iterator outside the list"
  | none => .error "erase: _dummyList.end()"

/-! ## Reference counts -/

/-- `incrPendingRef` and `incrRunningRef` on a count vector and its bitmask. -/
def incrRef (refCnt : LockMode → Nat) (modes : Nat) (mode : LockMode) (modesName : String) :
    Except String ((LockMode → Nat) × Nat) :=
  let refCnt := Function.update refCnt mode (refCnt mode + 1)
  if refCnt mode = 1 then
    if modes &&& (1 <<< enum2Int mode) = 0 then .ok (refCnt, modes ||| (1 <<< enum2Int mode))
    else .error ("INVARIANT failed:(" ++ modesName ++ " & (1 << modeInt)) == 0")
  else .ok (refCnt, modes)

/-- `decPendingRef` and `decRunningRef` on a count vector and its bitmask; the mask is
cleared with `static_cast<uint16_t>(~(1 << modeInt))`. -/
def decRef (refCnt : LockMode → Nat) (modes : Nat) (mode : LockMode)
    (refCntName modesName : String) : Except String ((LockMode → Nat) × Nat) :=
  if refCnt mode = 0 then .error ("INVARIANT failed:" ++ refCntName ++ "[modeInt] != 0")
  else
    let refCnt := Function.update refCnt mode (refCnt mode - 1)
    if refCnt mode = 0 then
      if modes &&& (1 <<< enum2Int mode) ≠ 0 then
        .ok (refCnt, modes &&& (0xFFFF ^^^ (1 <<< enum2Int mode)))
      else .error ("INVARIANT failed:(" ++ modesName ++ " & (1 << modeInt)) != 0")
    else .ok (refCnt, modes)

namespace LockSchedCtx

/-- `LockSchedCtx::incrPendingRef(mode)`. -/
def incrPendingRef (c : LockSchedCtx) (mode : LockMode) : Except String LockSchedCtx := do
  let (cnt, modes) ← incrRef c.pendingRefCnt c.pendingModes mode "_pendingModes"
  pure { c with pendingRefCnt := cnt, pendingModes := modes }

/-- `LockSchedCtx::decPendingRef(mode)`. -/
def decPendingRef (c : LockSchedCtx) (mode : LockMode) : Except String LockSchedCtx := do
  let (cnt, modes) ← decRef c.pendingRefCnt c.pendingModes mode "_pendingRefCnt" "_pendingModes"
  pure { c with pendingRefCnt := cnt, pendingModes := modes }

/-- `LockSchedCtx::incrRunningRef(mode)`. -/
def incrRunningRef (c : LockSchedCtx) (mode : LockMode) : Except String LockSchedCtx := do
  let (cnt, modes) ← incrRef c.runningRefCnt c.runningModes mode "_runningModes"
  pure { c with runningRefCnt := cnt, runningModes := modes }

/-- `LockSchedCtx::decRunningRef(mode)`. -/
def decRunningRef (c : LockSchedCtx) (mode : LockMode) : Except String LockSchedCtx := do
  let (cnt, modes) ← decRef c.runningRefCnt c.runningModes mode "_runningRefCnt" "_runningModes"
  pure { c with runningRefCnt := cnt, runningModes := modes }

/-! ## Scheduling -/

/-- `LockSchedCtx::lock(core)`: grant when nothing running conflicts and nobody waits,
else queue. -/
def lock (c : LockSchedCtx) (s : MglState) (core : Nat) :
    Except String (LockSchedCtx × MglState) :=
  let mode := (s.cores core).mode
  let (node, s) := s.newNode core
  if isConflict c.runningModes mode || decide (c.pendingList.length ≥ 1) then do
    let c ← ({ c with pendingList := c.pendingList ++ [node] } : LockSchedCtx).incrPendingRef mode
    pure (c, s.setLockResult core LOCKRES_WAIT node.addr)
  else do
    let c ← ({ c with runningList := c.runningList ++ [node] } : LockSchedCtx).incrRunningRef mode
    pure (c, s.setLockResult core LOCKRES_OK node.addr)

/-- The loop of `schedPendingLocks`, on the nodes from `it` to the end of `_pendingList`.
Each pass erases the node at `it` and the loop breaks at the first conflict, so `it` is
always `_pendingList.begin()`. -/
def schedPendingLoop : LockSchedCtx → MglState → List ListNode →
    Except String (LockSchedCtx × MglState)
  | c, s, [] => .ok (c, s)
  | c, s, node :: rest =>
    let mode := (s.cores node.core).mode
    if isConflict c.runningModes mode then .ok (c, s)
    else do
      let c ← c.incrRunningRef mode
      let c ← c.decPendingRef mode
      let (running, s) := s.newNode node.core
      let c := { c with runningList := c.runningList ++ [running], pendingList := rest }
      schedPendingLoop c (s.setLockResult node.core LOCKRES_OK running.addr) rest

/-- `LockSchedCtx::schedPendingLocks()`. -/
def schedPendingLocks (c : LockSchedCtx) (s : MglState) :
    Except String (LockSchedCtx × MglState) :=
  c.schedPendingLoop s c.pendingList

/-- `LockSchedCtx::unlock(core)`: whether the context is empty afterwards. A granted lock
only promotes waiters once the running modes drop to `0`. -/
def unlock (c : LockSchedCtx) (s : MglState) (core : Nat) :
    Except String (Bool × LockSchedCtx × MglState) :=
  let lk := s.cores core
  match lk.res with
  | LOCKRES_OK => do
    let runningList ← eraseIter c.runningList lk.resIter
    let c ← ({ c with runningList } : LockSchedCtx).decRunningRef lk.mode
    let s := s.releaseLockResult core
    if c.runningModes ≠ 0 then pure (false, c, s)
    else if c.runningList.length ≠ 0 then .error "INVARIANT failed:_runningList.size() == 0"
    else do
      let (c, s) ← c.schedPendingLocks s
      pure (c.pendingList.isEmpty && c.runningList.isEmpty, c, s)
  | LOCKRES_WAIT => do
    let pendingList ← eraseIter c.pendingList lk.resIter
    let c ← ({ c with pendingList } : LockSchedCtx).decPendingRef lk.mode
    let s := s.releaseLockResult core
    if (c.pendingModes = 0 ∧ c.pendingList.length = 0) ∨
        (c.pendingModes ≠ 0 ∧ c.pendingList.length ≠ 0) then do
      let (c, s) ← c.schedPendingLocks s
      pure (c.pendingList.isEmpty && c.runningList.isEmpty, c, s)
    else .error "INVARIANT failed:(_pendingModes == 0 && _pendingList.size() == 0) || (_pendingModes != 0 && _pendingList.size() != 0)"
  | _ => .error "INVARIANT failed:0"

end LockSchedCtx

/-! ## The manager and its callers -/

section Manager

variable (SHARD_NUM : Nat) (strHash : String → Nat)

/-- The context map of shard `i` with the entry for `target` set to `c`. -/
def MglState.setCtx (s : MglState) (i : Nat) (target : String) (c : Option LockSchedCtx) :
    MglState :=
  { s with shards := Function.update s.shards i (Function.update (s.shards i) target c) }

/-- `MGLockMgr::lock(core)`: find or emplace the target's context in its shard. -/
def MGLockMgr.lock (s : MglState) (core : Nat) : Except String MglState :=
  let lk := s.cores core
  let i := lk.targetHash % SHARD_NUM
  let c := (s.shards i lk.target).getD LockSchedCtx.init
  do
    let (c, s) ← c.lock s core
    pure (s.setCtx i lk.target (some c))

/-- `MGLockMgr::unlock(core)`: the context is erased once empty. -/
def MGLockMgr.unlock (s : MglState) (core : Nat) : Except String MglState :=
  let lk := s.cores core
  let i := lk.targetHash % SHARD_NUM
  if lk.res = LOCKRES_WAIT ∨ lk.res = LOCKRES_OK then
    match s.shards i lk.target with
    | none => .error "INVARIANT failed:iter != shard.map.end()"
    | some c => do
      let (empty, c, s) ← c.unlock s core
      pure (s.setCtx i lk.target (if empty then none else some c))
  else .error "INVARIANT failed:core->getStatus() == LockRes::LOCKRES_WAIT || core->getStatus() == LockRes::LOCKRES_OK"

/-- The `_targetHash` that `MGLock::lock` computes. -/
def targetHashOf (target : String) : Nat := if target ≠ "" then strHash target else 0

/-- The state effect of `MGLock::lock(target, mode, timeoutMs)`; the wait that follows
changes nothing. -/
def MGLock.lock (s : MglState) (core : Nat) (target : String) (mode : LockMode) :
    Except String MglState :=
  let lk := { s.cores core with target, mode }
  if lk.res = LOCKRES_UNINITED then
    let lk := { lk with resIter := none, targetHash := targetHashOf strHash target }
    MGLockMgr.lock SHARD_NUM { s with cores := Function.update s.cores core lk } core
  else .error "INVARIANT failed:getStatus() == LockRes::LOCKRES_UNINITED"

/-- `MGLock::unlock()`. -/
def MGLock.unlock (s : MglState) (core : Nat) : Except String MglState :=
  let status := (s.cores core).res
  if status = LOCKRES_UNINITED then .ok s
  else if status = LOCKRES_OK ∨ status = LOCKRES_WAIT then do
    let s ← MGLockMgr.unlock SHARD_NUM s core
    if (s.cores core).res = LOCKRES_UNINITED then pure s
    else .error "INVARIANT failed:status == LockRes::LOCKRES_UNINITED"
  else .error "INVARIANT failed:status == LockRes::LOCKRES_OK || status == LockRes::LOCKRES_WAIT"

/-! ## Runs -/

/-- A call of a thread into the lock manager. -/
inductive Action where
  | lock (core : Nat) (target : String) (mode : LockMode)
  | unlock (core : Nat)

/-- The ghost record of a lock call: its arrival stamp, and the next one. -/
def MglState.recordArrival (s : MglState) (core : Nat) : MglState :=
  { s with clock := s.clock + 1, arrival := Function.update s.arrival core s.clock }

/-- One atomic step; a lock call also records its arrival in the ghost fields. -/
def step (s : MglState) : Action → Except String MglState
  | .lock core target mode => do
    let s ← MGLock.lock SHARD_NUM strHash s core target mode
    pure (s.recordArrival core)
  | .unlock core => MGLock.unlock SHARD_NUM s core

/-- The states reached from the start by steps that succeed, in any interleaving. -/
inductive Reachable : MglState → Prop where
  | init : Reachable MglState.init
  | step {s s' : MglState} (a : Action) : Reachable s → step SHARD_NUM strHash s a = .ok s' →
      Reachable s'

end Manager

end NovaDb.Mgl
