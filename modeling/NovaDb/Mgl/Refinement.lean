/-
# The lock manager refines the scheduler

`MglState.sched` reads the abstract scheduler off a state of the lock manager: each
`MGLock`'s target, mode and result, and each target's queues as the `_id`s in the lists of
the context stored for it. `Rep` is the representation invariant that holds between the
calls of `mgl_mgr.cpp`: each `_targetHash` is the hash of its `_target`, each context sits
in the shard of its target, each stored context is `CtxOk`, and the abstract queues are
`Sched.Queues`. `RepInv` adds what holds after each whole step: a target with waiters has a
holder, and no stored context is empty.

* `schedPendingLoop_spec` : the loop of `schedPendingLocks` passes its checks and is the
  abstract `Sched.promote`;
* `lock_spec`, `unlock_spec` : a lock of an `MGLock` that holds nothing, and any unlock,
  succeed, keep `RepInv` and are the abstract `Sched.acquire` and `Sched.release`;
* `reachable_repInv`, `Reachable.sched` : every reachable state has `RepInv`, and its
  abstract state is reachable in the scheduler.
-/
import NovaDb.Mgl.Bookkeeping
import NovaDb.Mgl.Sched

namespace NovaDb.Mgl

open LockMode LockRes

/-- The requests of a context by `_id`: granted ones and waiting ones. -/
def LockSchedCtx.queue (c : LockSchedCtx) : Queue :=
  ⟨c.runningList.map (·.core), c.pendingList.map (·.core)⟩

@[simp] theorem LockSchedCtx.queue_running (c : LockSchedCtx) :
    c.queue.running = c.runningList.map (·.core) := rfl

@[simp] theorem LockSchedCtx.queue_pending (c : LockSchedCtx) :
    c.queue.pending = c.pendingList.map (·.core) := rfl

/-! ## Field lemmas of the state updates -/

section Fields

variable (s : MglState) (core : Nat)

@[simp] theorem MglState.setLockResult_cores (res : LockRes) (iter l : Nat) :
    (s.setLockResult core res iter).cores l =
      if l = core then { s.cores core with res, resIter := some iter } else s.cores l := by
  simp [MglState.setLockResult, Function.update_apply]

@[simp] theorem MglState.setLockResult_shards (res : LockRes) (iter : Nat) :
    (s.setLockResult core res iter).shards = s.shards := rfl
@[simp] theorem MglState.setLockResult_nextAddr (res : LockRes) (iter : Nat) :
    (s.setLockResult core res iter).nextAddr = s.nextAddr := rfl
@[simp] theorem MglState.setLockResult_clock (res : LockRes) (iter : Nat) :
    (s.setLockResult core res iter).clock = s.clock := rfl
@[simp] theorem MglState.setLockResult_arrival (res : LockRes) (iter : Nat) :
    (s.setLockResult core res iter).arrival = s.arrival := rfl

@[simp] theorem MglState.releaseLockResult_cores (l : Nat) :
    (s.releaseLockResult core).cores l =
      if l = core then { s.cores core with res := LOCKRES_UNINITED, resIter := none }
      else s.cores l := by
  simp [MglState.releaseLockResult, Function.update_apply]

@[simp] theorem MglState.releaseLockResult_shards : (s.releaseLockResult core).shards = s.shards :=
  rfl
@[simp] theorem MglState.releaseLockResult_nextAddr :
    (s.releaseLockResult core).nextAddr = s.nextAddr := rfl
@[simp] theorem MglState.releaseLockResult_clock : (s.releaseLockResult core).clock = s.clock :=
  rfl
@[simp] theorem MglState.releaseLockResult_arrival :
    (s.releaseLockResult core).arrival = s.arrival := rfl

@[simp] theorem MglState.newNode_fst : (s.newNode core).1 = ⟨s.nextAddr, core⟩ := rfl
@[simp] theorem MglState.newNode_snd :
    (s.newNode core).2 = { s with nextAddr := s.nextAddr + 1 } := rfl

end Fields

/-! ## The abstract state of a lock manager -/

section Projection

variable (SHARD_NUM : Nat) (strHash : String → Nat)

/-- The shard `hash % SHARD_NUM` of target `t`. -/
def shardOf (t : String) : Nat := targetHashOf strHash t % SHARD_NUM

/-- The context of target `t` in its shard. -/
def MglState.ctxOf (s : MglState) (t : String) : Option LockSchedCtx :=
  s.shards (shardOf SHARD_NUM strHash t) t

/-- `s` with the entry of `t` in its shard set to `c`. -/
def MglState.withCtx (s : MglState) (t : String) (c : Option LockSchedCtx) : MglState :=
  s.setCtx (shardOf SHARD_NUM strHash t) t c

/-- The abstract state: a target without a context has empty queues. -/
def MglState.sched (s : MglState) : Sched where
  target l := (s.cores l).target
  mode l := (s.cores l).mode
  res l := (s.cores l).res
  queue t := ((s.ctxOf SHARD_NUM strHash t).getD LockSchedCtx.init).queue
  clock := s.clock
  arrival := s.arrival

/-- Every stored context sits in the shard of its target. -/
def Placed (s : MglState) : Prop :=
  ∀ i t c, s.shards i t = some c → i = shardOf SHARD_NUM strHash t

/-- The representation invariant between the calls of `mgl_mgr.cpp`. -/
structure Rep (s : MglState) : Prop where
  hash : ∀ l, (s.cores l).targetHash = targetHashOf strHash (s.cores l).target
  placed : Placed SHARD_NUM strHash s
  ctx : ∀ t c, s.ctxOf SHARD_NUM strHash t = some c → CtxOk s c
  queues : (s.sched SHARD_NUM strHash).Queues

/-- The representation invariant after each whole step. -/
structure RepInv (s : MglState) extends Rep SHARD_NUM strHash s : Prop where
  holder : ∀ t, ((s.sched SHARD_NUM strHash).queue t).pending ≠ [] →
    ((s.sched SHARD_NUM strHash).queue t).running ≠ []
  live : ∀ t c, s.ctxOf SHARD_NUM strHash t = some c → c.runningList ≠ [] ∨ c.pendingList ≠ []

variable {SHARD_NUM strHash}

/-- A represented state has an abstract state with the scheduler's invariant. -/
theorem RepInv.inv {s : MglState} (h : RepInv SHARD_NUM strHash s) :
    (s.sched SHARD_NUM strHash).Inv :=
  ⟨h.queues, h.holder⟩

@[simp] theorem MglState.withCtx_cores (s : MglState) (t : String) (c : Option LockSchedCtx) :
    (s.withCtx SHARD_NUM strHash t c).cores = s.cores := rfl
@[simp] theorem MglState.withCtx_nextAddr (s : MglState) (t : String) (c : Option LockSchedCtx) :
    (s.withCtx SHARD_NUM strHash t c).nextAddr = s.nextAddr := rfl

/-- Storing a context for `t` changes the context of `t` alone. -/
theorem ctxOf_withCtx (s : MglState) (t t' : String) (c : Option LockSchedCtx) :
    (s.withCtx SHARD_NUM strHash t c).ctxOf SHARD_NUM strHash t' =
      if t' = t then c else s.ctxOf SHARD_NUM strHash t' := by
  simp only [MglState.withCtx, MglState.ctxOf, MglState.setCtx, Function.update_apply]
  by_cases e : t' = t
  · subst e; simp
  · by_cases hi : shardOf SHARD_NUM strHash t' = shardOf SHARD_NUM strHash t <;> simp [e, hi]

/-- Storing a context for `t` leaves every other entry of every shard alone. -/
theorem withCtx_shards_of_ne (s : MglState) {t t' : String} {i : Nat} (c : Option LockSchedCtx)
    (h : ¬(i = shardOf SHARD_NUM strHash t ∧ t' = t)) :
    (s.withCtx SHARD_NUM strHash t c).shards i t' = s.shards i t' := by
  simp only [MglState.withCtx, MglState.setCtx, Function.update_apply]
  by_cases hi : i = shardOf SHARD_NUM strHash t
  · subst hi; simp [Function.update_noteq fun e => h ⟨rfl, e⟩]
  · simp [hi]

/-- The contexts are those of the shards. -/
theorem ctxOf_of_shards {s s' : MglState} (h : s'.shards = s.shards) :
    s'.ctxOf SHARD_NUM strHash = s.ctxOf SHARD_NUM strHash := by
  funext t; simp [MglState.ctxOf, h]

/-- Storing back the context a state holds for `t` gives the state. -/
theorem withCtx_ctxOf (s : MglState) (t : String) :
    s.withCtx SHARD_NUM strHash t (s.ctxOf SHARD_NUM strHash t) = s := by
  simp [MglState.withCtx, MglState.setCtx, MglState.ctxOf]

/-- The abstract queue of `t` is that of its context, or empty. -/
theorem sched_queue (s : MglState) (t : String) :
    (s.sched SHARD_NUM strHash).queue t =
      ((s.ctxOf SHARD_NUM strHash t).getD LockSchedCtx.init).queue := rfl

/-- The abstract effect of storing a context, of `setLockResult` and of
`releaseLockResult`. -/
@[simp] theorem sched_withCtx (s : MglState) (t : String) (c : Option LockSchedCtx) :
    (s.withCtx SHARD_NUM strHash t c).sched SHARD_NUM strHash =
      (s.sched SHARD_NUM strHash).setQueue t (c.getD LockSchedCtx.init).queue :=
  Sched.ext rfl rfl rfl (funext fun t' => by
    by_cases e : t' = t <;> simp [sched_queue, ctxOf_withCtx, e]) rfl rfl

@[simp] theorem sched_setLockResult (s : MglState) (l : Nat) (r : LockRes) (a : Nat) :
    (s.setLockResult l r a).sched SHARD_NUM strHash = (s.sched SHARD_NUM strHash).setRes l r := by
  refine Sched.ext ?_ ?_ ?_ rfl rfl rfl <;> funext l' <;> by_cases e : l' = l <;>
    simp [MglState.sched, e]

@[simp] theorem sched_releaseLockResult (s : MglState) (l : Nat) :
    (s.releaseLockResult l).sched SHARD_NUM strHash =
      (s.sched SHARD_NUM strHash).setRes l LOCKRES_UNINITED := by
  refine Sched.ext ?_ ?_ ?_ rfl rfl rfl <;> funext l' <;> by_cases e : l' = l <;>
    simp [MglState.sched, e]

@[simp] theorem sched_nextAddr (s : MglState) (k : Nat) :
    ({ s with nextAddr := k } : MglState).sched SHARD_NUM strHash = s.sched SHARD_NUM strHash :=
  rfl

/-- The abstract queue of a stored context is its lists. -/
theorem sched_queue_of_ctxOf {s : MglState} {t : String} {c : LockSchedCtx}
    (h : s.ctxOf SHARD_NUM strHash t = some c) : (s.sched SHARD_NUM strHash).queue t = c.queue := by
  rw [sched_queue, h, Option.getD_some]

/-- A target whose abstract queue holds a lock has a stored context. -/
theorem exists_ctxOf_of_mem {s : MglState} {t : String} {l : Nat}
    (h : l ∈ ((s.sched SHARD_NUM strHash).queue t).running ++
      ((s.sched SHARD_NUM strHash).queue t).pending) :
    ∃ c, s.ctxOf SHARD_NUM strHash t = some c := by
  cases hc : s.ctxOf SHARD_NUM strHash t with
  | some c => exact ⟨c, rfl⟩
  | none => simp [sched_queue, hc, LockSchedCtx.init, LockSchedCtx.queue] at h

/-- Every node of a stored context belongs to an `MGLock` on its target that holds or waits. -/
theorem Rep.active_of_mem {s : MglState} (hR : Rep SHARD_NUM strHash s) {t : String}
    {c : LockSchedCtx} (hc : s.ctxOf SHARD_NUM strHash t = some c) {n : ListNode}
    (hn : n ∈ c.runningList ++ c.pendingList) :
    (s.cores n.core).res ≠ LOCKRES_UNINITED ∧ (s.cores n.core).target = t := by
  have hq := sched_queue_of_ctxOf hc
  rcases List.mem_append.mp hn with hn | hn
  · have := (hR.queues.running_iff t n.core).mp (by rw [hq]; exact List.mem_map_of_mem _ hn)
    exact ⟨fun e => by simp [MglState.sched, e] at this, this.2⟩
  · have := (hR.queues.pending_iff t n.core).mp (by rw [hq]; exact List.mem_map_of_mem _ hn)
    exact ⟨fun e => by simp [MglState.sched, e] at this, this.2⟩

/-- No node of another target's context belongs to a lock on `t` or to one that holds
nothing. -/
theorem Rep.core_ne {s : MglState} (hR : Rep SHARD_NUM strHash s) {l : Nat} {t t' : String}
    (ht : t' ≠ t) (hl : (s.cores l).target = t ∨ (s.cores l).res = LOCKRES_UNINITED)
    {c : LockSchedCtx} (hc : s.ctxOf SHARD_NUM strHash t' = some c) :
    ∀ n ∈ c.runningList ++ c.pendingList, n.core ≠ l := by
  rintro n hn rfl
  have := hR.active_of_mem hc hn
  rcases hl with hl | hl
  · exact ht (this.2.symm.trans hl)
  · exact this.1 hl

/-- **A call keeps the representation.** A call of `mgl_mgr.cpp` that changes only the
`MGLock` `l`, on `t` or holding nothing, allocates addresses upwards and replaces the
context of `t` by a represented one, keeps `Rep` if it keeps the abstract queues. -/
theorem Rep.withCtx {s s' : MglState} {t : String} {oc oc' : Option LockSchedCtx} {l : Nat}
    (hR : Rep SHARD_NUM strHash (s.withCtx SHARD_NUM strHash t oc)) (hsh : s'.shards = s.shards)
    (hna : s.nextAddr ≤ s'.nextAddr) (hcore : ∀ l', l' ≠ l → s'.cores l' = s.cores l')
    (hl : (s.cores l).target = t ∨ (s.cores l).res = LOCKRES_UNINITED)
    (hhash : (s'.cores l).targetHash = targetHashOf strHash (s'.cores l).target)
    (hctx : ∀ c, oc' = some c → CtxOk s' c)
    (hq : ((s'.withCtx SHARD_NUM strHash t oc').sched SHARD_NUM strHash).Queues) :
    Rep SHARD_NUM strHash (s'.withCtx SHARD_NUM strHash t oc') where
  hash l' := by
    by_cases e : l' = l
    · subst e; exact hhash
    · simpa [hcore l' e] using hR.hash l'
  placed i t' c hc := by
    by_cases hi : i = shardOf SHARD_NUM strHash t ∧ t' = t
    · rw [hi.1, hi.2]
    · refine hR.placed i t' c ?_
      rwa [withCtx_shards_of_ne _ _ hi, hsh, ← withCtx_shards_of_ne s oc hi] at hc
  ctx t' c hc := by
    rw [ctxOf_withCtx] at hc
    split at hc
    · exact (hctx c hc).frame (fun _ _ => rfl) le_rfl
    · rename_i ht
      rw [ctxOf_of_shards hsh] at hc
      have hc' : (s.withCtx SHARD_NUM strHash t oc).ctxOf SHARD_NUM strHash t' = some c := by
        rw [ctxOf_withCtx, if_neg ht, hc]
      exact (hR.ctx t' c hc').frame (fun n hn => hcore _ (hR.core_ne ht hl hc' n hn)) hna
  queues := hq

/-- On a represented side, the abstract `blocks` is `isConflict` of the side's mask. -/
theorem sched_blocks {s : MglState} {L : List ListNode} {cnt : LockMode → Nat} {modes : Nat}
    (h : SideOk s L cnt modes) (m : LockMode) :
    (s.sched SHARD_NUM strHash).blocks (L.map (·.core)) m = isConflict modes m := by
  rw [h.isConflict_eq, Sched.blocks, Bool.eq_iff_iff, List.any_eq_true, List.any_eq_true]
  constructor
  · rintro ⟨_, hm, hc⟩
    obtain ⟨n, hn, rfl⟩ := List.mem_map.mp hm
    exact ⟨n, hn, hc⟩
  · rintro ⟨n, hn, hc⟩
    exact ⟨_, List.mem_map_of_mem _ hn, hc⟩

/-! ## The loop of `schedPendingLocks` -/

/-- **One pass of `schedPendingLocks`.** When the head of `_pendingList` conflicts with no
running mode, the pass moves it to `_runningList`: the abstract promotion of the head. -/
theorem schedPendingLoop_grant {t : String} {c : LockSchedCtx} {s : MglState} {node : ListNode}
    {rest : List ListNode} (hp : c.pendingList = node :: rest)
    (hR : Rep SHARD_NUM strHash (s.withCtx SHARD_NUM strHash t (some c)))
    (hfree : isConflict c.runningModes (s.cores node.core).mode = false) :
    ∃ (c₁ : LockSchedCtx) (s₁ : MglState),
      c.schedPendingLoop s (node :: rest) = c₁.schedPendingLoop s₁ rest ∧
      c₁.pendingList = rest ∧ s₁.shards = s.shards ∧
      Rep SHARD_NUM strHash (s₁.withCtx SHARD_NUM strHash t (some c₁)) ∧
      (s₁.withCtx SHARD_NUM strHash t (some c₁)).sched SHARD_NUM strHash =
        (((s.withCtx SHARD_NUM strHash t (some c)).sched SHARD_NUM strHash).setQueue t
          ⟨c.runningList.map (·.core) ++ [node.core], rest.map (·.core)⟩).setRes node.core
          LOCKRES_OK := by
  have hctx : (s.withCtx SHARD_NUM strHash t (some c)).ctxOf SHARD_NUM strHash t = some c := by
    rw [ctxOf_withCtx, if_pos rfl]
  have hq := sched_queue_of_ctxOf hctx
  have hcS := hR.ctx t c hctx
  have hc : CtxOk s c := hcS.frame (fun _ _ => rfl) le_rfl
  have hQ := hR.queues
  have hwait := (hQ.pending_iff t node.core).mp (by simp [hq, hp])
  have hnd := hQ.pending_nodup t
  rw [hq, LockSchedCtx.queue_pending, hp, List.map_cons, List.nodup_cons] at hnd
  have hnr : ∀ n ∈ c.runningList, n.core ≠ node.core := fun n hn e => by
    have := ((hQ.running_iff t n.core).mp (by rw [hq]; exact List.mem_map_of_mem _ hn)).1
    rw [e, hwait.1] at this
    exact absurd this (by decide)
  have hnp : ∀ n ∈ rest, n.core ≠ node.core := fun n hn e => hnd.1 (e ▸ List.mem_map_of_mem _ hn)
  set s₁ : MglState := ({ s with nextAddr := s.nextAddr + 1 } : MglState).setLockResult node.core
    LOCKRES_OK s.nextAddr with hs₁
  have hcore : ∀ l', l' ≠ node.core → s₁.cores l' = s.cores l' := fun l' e => by simp [s₁, e]
  have hiter₁ : (s₁.cores node.core).resIter = some s.nextAddr := by simp [s₁]
  obtain ⟨rm, hinc, hrun⟩ := hc.running.push "_runningModes" (fun n hn => hcore _ (hnr n hn))
    (by simp [s₁]) hiter₁
  have hpend : SideOk s ([] ++ node :: rest) c.pendingRefCnt c.pendingModes := by
    rw [List.nil_append, ← hp]; exact hc.pending
  obtain ⟨pm, hdec, hpend'⟩ := hpend.remove "_pendingRefCnt" "_pendingModes"
  rw [List.nil_append] at hdec hpend'
  rw [show (s₁.cores node.core).mode = (s.cores node.core).mode by simp [s₁]] at hinc
  have hp' : (((s.withCtx SHARD_NUM strHash t (some c)).sched SHARD_NUM strHash).queue t).pending =
      node.core :: rest.map (·.core) := by
    rw [hq]; simp [hp]
  have hone := hQ.promoteOne hp'
    (by rw [hq, LockSchedCtx.queue_running, sched_blocks hcS.running]; exact hfree)
  rw [hq, LockSchedCtx.queue_running] at hone
  let c₁ : LockSchedCtx :=
    { c with runningRefCnt := tally s₁ (c.runningList ++ [⟨s.nextAddr, node.core⟩]),
             runningModes := rm, pendingRefCnt := tally s rest, pendingModes := pm,
             runningList := c.runningList ++ [⟨s.nextAddr, node.core⟩], pendingList := rest }
  have hsched : (s₁.withCtx SHARD_NUM strHash t (some c₁)).sched SHARD_NUM strHash =
      (((s.withCtx SHARD_NUM strHash t (some c)).sched SHARD_NUM strHash).setQueue t
        ⟨c.runningList.map (·.core) ++ [node.core], rest.map (·.core)⟩).setRes node.core
        LOCKRES_OK := by
    simp [s₁, c₁, Sched.setQueue_setQueue, Sched.setRes_setQueue, LockSchedCtx.queue]
  refine ⟨c₁, s₁, ?_, rfl, rfl, ?_, hsched⟩
  · rw [LockSchedCtx.schedPendingLoop]
    simp only [hfree, Bool.false_eq_true, if_false, LockSchedCtx.incrRunningRef_eq hinc, pure_bind,
      LockSchedCtx.decPendingRef, hdec]
    rfl
  · refine Rep.withCtx hR rfl (by simp [s₁]) hcore (.inl hwait.2)
      (by simpa [s₁] using hR.hash node.core) ?_ (by rw [hsched]; exact hone)
    rintro _ ⟨⟩
    exact ⟨hrun, hpend'.frame (fun n hn => hcore _ (hnp n hn)) (by simp [s₁])⟩

/-- **The loop of `schedPendingLocks` is promotion.** From a represented state it passes
all its checks, keeps the representation, and does what `Sched.promote` does. -/
theorem schedPendingLoop_spec (t : String) : ∀ (L : List ListNode) (c : LockSchedCtx) (s : MglState),
    c.pendingList = L → Rep SHARD_NUM strHash (s.withCtx SHARD_NUM strHash t (some c)) →
    ∃ c' s', c.schedPendingLoop s L = .ok (c', s') ∧ s'.shards = s.shards ∧
      Rep SHARD_NUM strHash (s'.withCtx SHARD_NUM strHash t (some c')) ∧
      (s'.withCtx SHARD_NUM strHash t (some c')).sched SHARD_NUM strHash =
        ((s.withCtx SHARD_NUM strHash t (some c)).sched SHARD_NUM strHash).promote t
          (L.map (·.core))
  | [], c, s, _, hR => ⟨c, s, rfl, rfl, hR, rfl⟩
  | node :: rest, c, s, hp, hR => by
    have hctx : (s.withCtx SHARD_NUM strHash t (some c)).ctxOf SHARD_NUM strHash t = some c := by
      rw [ctxOf_withCtx, if_pos rfl]
    have hmode : ((s.withCtx SHARD_NUM strHash t (some c)).sched SHARD_NUM strHash).mode node.core =
        (s.cores node.core).mode := rfl
    rw [List.map_cons, Sched.promote_cons, sched_queue_of_ctxOf hctx, LockSchedCtx.queue_running,
      sched_blocks (hR.ctx t c hctx).running, hmode]
    by_cases hb : isConflict c.runningModes (s.cores node.core).mode = true
    · rw [if_pos hb, LockSchedCtx.schedPendingLoop]
      simp only [hb, if_true]
      exact ⟨c, s, rfl, rfl, hR, rfl⟩
    · rw [Bool.not_eq_true] at hb
      obtain ⟨c₁, s₁, heq, hp₁, hsh₁, hR₁, hsched⟩ := schedPendingLoop_grant hp hR hb
      obtain ⟨c', s', hrun, hsh', hR', hsched'⟩ := schedPendingLoop_spec t rest c₁ s₁ hp₁ hR₁
      refine ⟨c', s', heq ▸ hrun, hsh'.trans hsh₁, hR', ?_⟩
      rw [if_neg (by simp [hb]), hsched', hsched]

/-! ## `MGLock::lock` -/

/-- `MGLock::lock` on an `MGLock` that holds nothing: its assignments, then
`MGLockMgr::lock`. -/
theorem MGLock.lock_eq {s : MglState} {l : Nat} (hl : (s.cores l).res = LOCKRES_UNINITED)
    (t : String) (m : LockMode) :
    MGLock.lock SHARD_NUM strHash s l t m =
      MGLockMgr.lock SHARD_NUM
        { s with
          cores := Function.update s.cores l
            { s.cores l with
              target := t, mode := m, resIter := none, targetHash := targetHashOf strHash t } }
        l := by
  simp only [MGLock.lock, hl, if_true]

/-- `MGLockMgr::lock` on an `MGLock` whose hash is that of its target: the target's
context, found or fresh, takes the lock and is stored back. -/
theorem MGLockMgr.lock_eq {s : MglState} {l : Nat}
    (hh : (s.cores l).targetHash = targetHashOf strHash (s.cores l).target) :
    MGLockMgr.lock SHARD_NUM s l = (do
      let (c, s') ← ((s.ctxOf SHARD_NUM strHash (s.cores l).target).getD
        LockSchedCtx.init).lock s l
      pure (s'.withCtx SHARD_NUM strHash (s.cores l).target (some c))) := by
  simp only [MGLockMgr.lock, hh]
  rfl

/-- The abstract state after the assignments of `MGLock::lock`, the result its context
sets, and the recorded arrival. -/
theorem sched_eq_arrive {s s' : MglState} {l : Nat} {t : String} {m : LockMode} {r : LockRes}
    (hcore : ∀ l', l' ≠ l → s'.cores l' = s.cores l')
    (hl : (s'.cores l).target = t ∧ (s'.cores l).mode = m ∧ (s'.cores l).res = r)
    (hsh : s'.shards = s.shards) (hclock : s'.clock = s.clock + 1)
    (harr : s'.arrival = Function.update s.arrival l s.clock) :
    s'.sched SHARD_NUM strHash = ((s.sched SHARD_NUM strHash).arrive l t m).setRes l r := by
  refine Sched.ext ?_ ?_ ?_ ?_ hclock harr <;> funext x
  · by_cases e : x = l
    · subst e; simp [MglState.sched, hl.1, Sched.arrive_target]
    · simp [MglState.sched, hcore x e, Sched.arrive_target, e]
  · by_cases e : x = l
    · subst e; simp [MglState.sched, hl.2.1, Sched.arrive_mode]
    · simp [MglState.sched, hcore x e, Sched.arrive_mode, e]
  · by_cases e : x = l
    · subst e; simp [MglState.sched, hl.2.2]
    · simp [MglState.sched, hcore x e, e]
  · simp [sched_queue, ctxOf_of_shards hsh]

/-- After a call that stores a non-empty context for `t` and leaves the others alone, no
stored context is empty. -/
theorem live_withCtx {s s' : MglState} {t : String} {oc : Option LockSchedCtx}
    (hsh : s'.shards = s.shards)
    (hlive : ∀ t c, s.ctxOf SHARD_NUM strHash t = some c → c.runningList ≠ [] ∨ c.pendingList ≠ [])
    (hc : ∀ c, oc = some c → c.runningList ≠ [] ∨ c.pendingList ≠ []) :
    ∀ t' c, (s'.withCtx SHARD_NUM strHash t oc).ctxOf SHARD_NUM strHash t' = some c →
      c.runningList ≠ [] ∨ c.pendingList ≠ [] := by
  intro t' c h
  rw [ctxOf_withCtx] at h
  split at h
  · exact hc c h
  · rw [ctxOf_of_shards hsh] at h; exact hlive t' c h

/-- **Locking is acquiring.** From a state with `RepInv`, `MGLock::lock` on an `MGLock`
that holds nothing passes every check, keeps `RepInv`, and is `Sched.acquire`. -/
theorem lock_spec {s : MglState} (hR : RepInv SHARD_NUM strHash s) {l : Nat}
    (hl : (s.cores l).res = LOCKRES_UNINITED) (t : String) (m : LockMode) :
    ∃ s', step SHARD_NUM strHash s (.lock l t m) = .ok s' ∧ RepInv SHARD_NUM strHash s' ∧
      s'.sched SHARD_NUM strHash = (s.sched SHARD_NUM strHash).acquire l t m := by
  obtain ⟨s₀, hs₀⟩ : ∃ s₀ : MglState, s₀ =
      { s with
        cores := Function.update s.cores l
          { s.cores l with
            target := t, mode := m, resIter := none, targetHash := targetHashOf strHash t } } :=
    ⟨_, rfl⟩
  have h₀ : (s₀.cores l).target = t ∧ (s₀.cores l).mode = m ∧
      (s₀.cores l).targetHash = targetHashOf strHash t := by
    subst hs₀; simp
  have hcore₀ : ∀ l', l' ≠ l → s₀.cores l' = s.cores l' := fun l' e => by subst hs₀; simp [e]
  have hsh₀ : s₀.shards = s.shards := by subst hs₀; rfl
  have hna₀ : s₀.nextAddr = s.nextAddr := by subst hs₀; rfl
  obtain ⟨c, hcdef⟩ : ∃ c, (s.ctxOf SHARD_NUM strHash t).getD LockSchedCtx.init = c := ⟨_, rfl⟩
  have hq : (s.sched SHARD_NUM strHash).queue t = c.queue := by rw [sched_queue, hcdef]
  -- the context of `t` is represented and does not hold `l`
  have hcs : CtxOk s c ∧ ∀ n ∈ c.runningList ++ c.pendingList, n.core ≠ l := by
    cases h : s.ctxOf SHARD_NUM strHash t with
    | none => rw [h] at hcdef; subst hcdef; exact ⟨ctxOk_init s, by simp [LockSchedCtx.init]⟩
    | some c' =>
      rw [h] at hcdef; subst hcdef
      exact ⟨hR.ctx t c' h, fun n hn e => (hR.active_of_mem h hn).1 (e ▸ hl)⟩
  obtain ⟨hc, hfree⟩ := hcs
  have hc₀ : CtxOk s₀ c := hc.frame (fun n hn => hcore₀ _ (hfree n hn)) hna₀.ge
  have hrun : ∀ {c' : LockSchedCtx} {s₂ : MglState}, c.lock s₀ l = .ok (c', s₂) →
      step SHARD_NUM strHash s (.lock l t m) =
        .ok ((s₂.recordArrival l).withCtx SHARD_NUM strHash t (some c')) := by
    intro c' s₂ hlock
    rw [step, MGLock.lock_eq hl, ← hs₀, MGLockMgr.lock_eq (by rw [h₀.2.2, h₀.1]), h₀.1,
      ctxOf_of_shards hsh₀, hcdef, hlock]
    rfl
  have hnr : l ∉ c.queue.running := fun hm => by
    obtain ⟨n, hn, e⟩ := List.mem_map.mp hm
    exact hfree n (List.mem_append_left _ hn) e
  have hcond : (((s.sched SHARD_NUM strHash).arrive l t m).blocks
      ((s.sched SHARD_NUM strHash).queue t).running m ||
        !((s.sched SHARD_NUM strHash).queue t).pending.isEmpty) =
      (isConflict c.runningModes m || decide (c.pendingList.length ≥ 1)) := by
    rw [hq, Sched.blocks_arrive _ hnr, LockSchedCtx.queue_running, sched_blocks hc.running,
      LockSchedCtx.queue_pending]
    congr 1
    cases c.pendingList <;> simp
  have hRs : Rep SHARD_NUM strHash
      (s.withCtx SHARD_NUM strHash t (s.ctxOf SHARD_NUM strHash t)) := by
    rw [withCtx_ctxOf]; exact hR.toRep
  -- the state the context's call leaves, for the result `r` it sets
  have hs₂ : ∀ r : LockRes, ∀ s₂ : MglState,
      s₂ = ({ s₀ with nextAddr := s₀.nextAddr + 1 } : MglState).setLockResult l r s₀.nextAddr →
      (∀ l', l' ≠ l → (s₂.recordArrival l).cores l' = s.cores l') ∧
      (∀ n ∈ c.runningList ++ c.pendingList, (s₂.recordArrival l).cores n.core =
        s₀.cores n.core) ∧
      (s₂.recordArrival l).sched SHARD_NUM strHash =
        ((s.sched SHARD_NUM strHash).arrive l t m).setRes l r ∧
      (s₂.recordArrival l).shards = s.shards ∧ s.nextAddr < (s₂.recordArrival l).nextAddr ∧
      ((s₂.recordArrival l).cores l).targetHash =
        targetHashOf strHash ((s₂.recordArrival l).cores l).target ∧
      ((s₂.recordArrival l).cores l).resIter = some s₀.nextAddr ∧
      ((s₂.recordArrival l).cores l).mode = m := by
    rintro r _ rfl
    have hcore : ∀ l', l' ≠ l → (((({ s₀ with nextAddr := s₀.nextAddr + 1 } : MglState).setLockResult l r
        s₀.nextAddr).recordArrival l).cores l' = s.cores l') := fun l' e => by
      simp [MglState.recordArrival, e, hcore₀ l' e]
    refine ⟨hcore, fun n hn => (hcore _ (hfree n hn)).trans (hcore₀ _ (hfree n hn)).symm,
      sched_eq_arrive hcore ?_ hsh₀ (by subst hs₀; rfl) (by subst hs₀; rfl),
      hsh₀, by simp [MglState.recordArrival, hna₀], ?_, by simp [MglState.recordArrival], ?_⟩ <;>
      simp [MglState.recordArrival, h₀]
  by_cases hb : (isConflict c.runningModes m || decide (c.pendingList.length ≥ 1)) = true
  · -- queued behind a conflicting holder or an earlier waiter
    obtain ⟨s₂, hs₂def⟩ : ∃ s₂ : MglState, s₂ = ({ s₀ with nextAddr := s₀.nextAddr + 1 } :
        MglState).setLockResult l LOCKRES_WAIT s₀.nextAddr := ⟨_, rfl⟩
    obtain ⟨hcore, hfr, hsched, hsh, hna, hhash, hiter, hmode⟩ := hs₂ _ s₂ hs₂def
    obtain ⟨pm, hinc, hside⟩ := hc₀.pending.push "_pendingModes"
      (fun n hn => hfr n (List.mem_append_right _ hn)) (by rw [hna₀]; exact hna) hiter
    rw [hmode] at hinc
    obtain ⟨c', hc'⟩ : ∃ c' : LockSchedCtx, c' =
        { c with
          pendingList := c.pendingList ++ [⟨s₀.nextAddr, l⟩],
          pendingRefCnt := tally (s₂.recordArrival l) (c.pendingList ++ [⟨s₀.nextAddr, l⟩]),
          pendingModes := pm } := ⟨_, rfl⟩
    have hlock : c.lock s₀ l = .ok (c', s₂) := by
      subst hc' hs₂def
      simp only [LockSchedCtx.lock, MglState.newNode, h₀.2.1, hb, if_true,
        LockSchedCtx.incrPendingRef, hinc]
      rfl
    have habs : ((s₂.recordArrival l).withCtx SHARD_NUM strHash t (some c')).sched SHARD_NUM
        strHash = (s.sched SHARD_NUM strHash).acquire l t m := by
      rw [sched_withCtx, Option.getD_some, hsched, Sched.acquire_eq_wait _ (hcond.trans hb),
        Sched.setRes_setQueue, hq, hc']
      simp [LockSchedCtx.queue]
    refine ⟨_, hrun hlock, ⟨?_, fun t' => ?_, ?_⟩, habs⟩
    · refine Rep.withCtx hRs hsh hna.le hcore (.inr hl) hhash ?_
        (by rw [habs]; exact (hR.inv.acquire hl t m).toQueues)
      rintro _ ⟨⟩
      subst hc'
      exact ⟨hc₀.running.frame (fun n hn => hfr n (List.mem_append_left _ hn))
        (by rw [hna₀]; exact hna.le), hside⟩
    · rw [habs]; exact (hR.inv.acquire hl t m).holder t'
    · exact live_withCtx hsh hR.live (by rintro _ ⟨⟩; subst hc'; simp)
  · -- granted at once
    rw [Bool.not_eq_true] at hb
    obtain ⟨s₂, hs₂def⟩ : ∃ s₂ : MglState, s₂ = ({ s₀ with nextAddr := s₀.nextAddr + 1 } :
        MglState).setLockResult l LOCKRES_OK s₀.nextAddr := ⟨_, rfl⟩
    obtain ⟨hcore, hfr, hsched, hsh, hna, hhash, hiter, hmode⟩ := hs₂ _ s₂ hs₂def
    obtain ⟨rm, hinc, hside⟩ := hc₀.running.push "_runningModes"
      (fun n hn => hfr n (List.mem_append_left _ hn)) (by rw [hna₀]; exact hna) hiter
    rw [hmode] at hinc
    obtain ⟨c', hc'⟩ : ∃ c' : LockSchedCtx, c' =
        { c with
          runningList := c.runningList ++ [⟨s₀.nextAddr, l⟩],
          runningRefCnt := tally (s₂.recordArrival l) (c.runningList ++ [⟨s₀.nextAddr, l⟩]),
          runningModes := rm } := ⟨_, rfl⟩
    have hlock : c.lock s₀ l = .ok (c', s₂) := by
      subst hc' hs₂def
      simp only [LockSchedCtx.lock, MglState.newNode, h₀.2.1, hb, Bool.false_eq_true, if_false,
        LockSchedCtx.incrRunningRef, hinc]
      rfl
    have habs : ((s₂.recordArrival l).withCtx SHARD_NUM strHash t (some c')).sched SHARD_NUM
        strHash = (s.sched SHARD_NUM strHash).acquire l t m := by
      rw [sched_withCtx, Option.getD_some, hsched, Sched.acquire_eq_grant _ (hcond.trans hb),
        Sched.setRes_setQueue, hq, hc']
      simp [LockSchedCtx.queue]
    refine ⟨_, hrun hlock, ⟨?_, fun t' => ?_, ?_⟩, habs⟩
    · refine Rep.withCtx hRs hsh hna.le hcore (.inr hl) hhash ?_
        (by rw [habs]; exact (hR.inv.acquire hl t m).toQueues)
      rintro _ ⟨⟩
      subst hc'
      exact ⟨hside, hc₀.pending.frame (fun n hn => hfr n (List.mem_append_right _ hn))
        (by rw [hna₀]; exact hna.le)⟩
    · rw [habs]; exact (hR.inv.acquire hl t m).holder t'
    · exact live_withCtx hsh hR.live (by rintro _ ⟨⟩; subst hc'; simp)

/-! ## `MGLock::unlock` -/

/-- A context that a lock of it leaves, stored back after `releaseLockResult`, keeps the
representation when its sides are represented and the abstract queues are consistent. -/
theorem Rep.withdraw {s : MglState} {l : Nat} {t : String} {c c₁ : LockSchedCtx}
    (hR : Rep SHARD_NUM strHash s) (hc : s.ctxOf SHARD_NUM strHash t = some c)
    (ht : (s.cores l).target = t) (hctx : CtxOk (s.releaseLockResult l) c₁)
    (hq : (((s.releaseLockResult l).withCtx SHARD_NUM strHash t (some c₁)).sched SHARD_NUM
      strHash).Queues) :
    Rep SHARD_NUM strHash ((s.releaseLockResult l).withCtx SHARD_NUM strHash t (some c₁)) := by
  have hRc : Rep SHARD_NUM strHash (s.withCtx SHARD_NUM strHash t (some c)) := by
    rw [← hc, withCtx_ctxOf]; exact hR
  refine Rep.withCtx hRc rfl le_rfl (fun l' e => by simp [e]) (.inl ht)
    (by simpa using hR.hash l) (by rintro _ ⟨⟩; exact hctx) hq

/-- The first half of `LockSchedCtx::unlock` for a granted lock: its node leaves
`_runningList` and the running counts drop. The context left represents the abstract
withdrawal of the lock. -/
theorem LockSchedCtx.withdraw_running {s : MglState} {l : Nat} {t : String} {c : LockSchedCtx}
    (hR : Rep SHARD_NUM strHash s) (hc : s.ctxOf SHARD_NUM strHash t = some c)
    (ht : (s.cores l).target = t) (hok : (s.cores l).res = LOCKRES_OK) :
    ∃ L rm c₁, c₁ = { c with runningList := L, runningRefCnt := tally s L, runningModes := rm } ∧
      eraseIter c.runningList (s.cores l).resIter = pure L ∧
      decRef c.runningRefCnt c.runningModes (s.cores l).mode "_runningRefCnt" "_runningModes" =
        pure (tally s L, rm) ∧
      c.queue.running.erase l = L.map (·.core) ∧ (rm = 0 ↔ L = []) ∧
      Rep SHARD_NUM strHash ((s.releaseLockResult l).withCtx SHARD_NUM strHash t (some c₁)) ∧
      ((s.releaseLockResult l).withCtx SHARD_NUM strHash t (some c₁)).sched SHARD_NUM strHash =
        ((s.sched SHARD_NUM strHash).setQueue t
          { c.queue with running := c.queue.running.erase l }).setRes l LOCKRES_UNINITED := by
  have hcS : CtxOk s c := hR.ctx t c hc
  have hq : (s.sched SHARD_NUM strHash).queue t = c.queue := sched_queue_of_ctxOf hc
  have hmem : l ∈ c.runningList.map (·.core) := by
    rw [← LockSchedCtx.queue_running, ← hq]; exact (hR.queues.running_iff t l).mpr ⟨hok, ht⟩
  obtain ⟨L₁, n, L₂, hn, hL, herase⟩ := hcS.running.eraseIter hmem
  have hnd : ((L₁ ++ n :: L₂).map (·.core)).Nodup := by
    rw [← hL, ← LockSchedCtx.queue_running, ← hq]; exact hR.queues.running_nodup t
  have hrun₁ : c.queue.running.erase l = (L₁ ++ L₂).map (·.core) := by
    rw [LockSchedCtx.queue_running, hL, map_core_remove hnd, hn]
  have hrest : ∀ n' ∈ L₁ ++ L₂, n'.core ≠ l := hn ▸ core_ne_of_remove hnd
  -- no node of `_pendingList` is `l`, which is granted
  have hpend : ∀ n' ∈ c.pendingList, n'.core ≠ l := fun n' hn' e => by
    have := ((hR.queues.pending_iff t n'.core).mp
      (by rw [hq]; exact List.mem_map_of_mem _ hn')).1
    rw [e] at this
    simp [MglState.sched, hok] at this
  obtain ⟨rm, hdec, hside⟩ := (hL ▸ hcS.running).remove "_runningRefCnt" "_runningModes"
  rw [hn] at hdec
  obtain ⟨c₁, hc₁⟩ : ∃ c₁ : LockSchedCtx, c₁ =
      { c with
        runningList := L₁ ++ L₂, runningRefCnt := tally s (L₁ ++ L₂), runningModes := rm } :=
    ⟨_, rfl⟩
  have hcq : c₁.queue = { c.queue with running := c.queue.running.erase l } := by
    rw [hrun₁, hc₁]; rfl
  have hsched₁ : ((s.releaseLockResult l).withCtx SHARD_NUM strHash t (some c₁)).sched
      SHARD_NUM strHash = ((s.sched SHARD_NUM strHash).setQueue t
        { c.queue with running := c.queue.running.erase l }).setRes l LOCKRES_UNINITED := by
    rw [sched_withCtx, sched_releaseLockResult, Option.getD_some, Sched.setRes_setQueue, hcq]
  refine ⟨L₁ ++ L₂, rm, c₁, hc₁, herase, hdec, hrun₁, hside.modes_eq_zero_iff,
    Rep.withdraw hR hc ht ?_ ?_, hsched₁⟩
  · subst hc₁
    exact ⟨hside.frame (fun n' hn' => by simp [hrest n' hn']) le_rfl,
      hcS.pending.frame (fun n' hn' => by simp [hpend n' hn']) le_rfl⟩
  · have := hR.queues.withdrawRunning hok
    rw [show (s.sched SHARD_NUM strHash).target l = t from ht, hq] at this
    rwa [hsched₁]

/-- The first half of `LockSchedCtx::unlock` for a waiting lock: its node leaves
`_pendingList` and the pending counts drop. The context left represents the abstract
withdrawal of the lock. -/
theorem LockSchedCtx.withdraw_pending {s : MglState} {l : Nat} {t : String} {c : LockSchedCtx}
    (hR : Rep SHARD_NUM strHash s) (hc : s.ctxOf SHARD_NUM strHash t = some c)
    (ht : (s.cores l).target = t) (hwait : (s.cores l).res = LOCKRES_WAIT) :
    ∃ L pm c₁, c₁ = { c with pendingList := L, pendingRefCnt := tally s L, pendingModes := pm } ∧
      eraseIter c.pendingList (s.cores l).resIter = pure L ∧
      decRef c.pendingRefCnt c.pendingModes (s.cores l).mode "_pendingRefCnt" "_pendingModes" =
        pure (tally s L, pm) ∧
      c.queue.pending.erase l = L.map (·.core) ∧ (pm = 0 ↔ L = []) ∧
      Rep SHARD_NUM strHash ((s.releaseLockResult l).withCtx SHARD_NUM strHash t (some c₁)) ∧
      ((s.releaseLockResult l).withCtx SHARD_NUM strHash t (some c₁)).sched SHARD_NUM strHash =
        ((s.sched SHARD_NUM strHash).setQueue t
          { c.queue with pending := c.queue.pending.erase l }).setRes l LOCKRES_UNINITED := by
  have hcS : CtxOk s c := hR.ctx t c hc
  have hq : (s.sched SHARD_NUM strHash).queue t = c.queue := sched_queue_of_ctxOf hc
  have hmem : l ∈ c.pendingList.map (·.core) := by
    rw [← LockSchedCtx.queue_pending, ← hq]; exact (hR.queues.pending_iff t l).mpr ⟨hwait, ht⟩
  obtain ⟨L₁, n, L₂, hn, hL, herase⟩ := hcS.pending.eraseIter hmem
  have hnd : ((L₁ ++ n :: L₂).map (·.core)).Nodup := by
    rw [← hL, ← LockSchedCtx.queue_pending, ← hq]; exact hR.queues.pending_nodup t
  have hpen₁ : c.queue.pending.erase l = (L₁ ++ L₂).map (·.core) := by
    rw [LockSchedCtx.queue_pending, hL, map_core_remove hnd, hn]
  have hrest : ∀ n' ∈ L₁ ++ L₂, n'.core ≠ l := hn ▸ core_ne_of_remove hnd
  -- no node of `_runningList` is `l`, which waits
  have hrun : ∀ n' ∈ c.runningList, n'.core ≠ l := fun n' hn' e => by
    have := ((hR.queues.running_iff t n'.core).mp
      (by rw [hq]; exact List.mem_map_of_mem _ hn')).1
    rw [e] at this
    simp [MglState.sched, hwait] at this
  obtain ⟨pm, hdec, hside⟩ := (hL ▸ hcS.pending).remove "_pendingRefCnt" "_pendingModes"
  rw [hn] at hdec
  obtain ⟨c₁, hc₁⟩ : ∃ c₁ : LockSchedCtx, c₁ =
      { c with
        pendingList := L₁ ++ L₂, pendingRefCnt := tally s (L₁ ++ L₂), pendingModes := pm } :=
    ⟨_, rfl⟩
  have hcq : c₁.queue = { c.queue with pending := c.queue.pending.erase l } := by
    rw [hpen₁, hc₁]; rfl
  have hsched₁ : ((s.releaseLockResult l).withCtx SHARD_NUM strHash t (some c₁)).sched
      SHARD_NUM strHash = ((s.sched SHARD_NUM strHash).setQueue t
        { c.queue with pending := c.queue.pending.erase l }).setRes l LOCKRES_UNINITED := by
    rw [sched_withCtx, sched_releaseLockResult, Option.getD_some, Sched.setRes_setQueue, hcq]
  refine ⟨L₁ ++ L₂, pm, c₁, hc₁, herase, hdec, hpen₁, hside.modes_eq_zero_iff,
    Rep.withdraw hR hc ht ?_ ?_, hsched₁⟩
  · subst hc₁
    exact ⟨hcS.running.frame (fun n' hn' => by simp [hrun n' hn']) le_rfl,
      hside.frame (fun n' hn' => by simp [hrest n' hn']) le_rfl⟩
  · have := hR.queues.withdrawPending hwait
    rw [show (s.sched SHARD_NUM strHash).target l = t from ht, hq] at this
    rwa [hsched₁]

/-- **`LockSchedCtx::unlock` is releasing.** On the context of its target, the unlock of a
lock that holds or waits passes every check, returns whether the context is empty, keeps
the representation, and does what `Sched.release` does. -/
theorem LockSchedCtx.unlock_spec {s : MglState} {l : Nat} {t : String} {c : LockSchedCtx}
    (hR : Rep SHARD_NUM strHash s) (hc : s.ctxOf SHARD_NUM strHash t = some c)
    (ht : (s.cores l).target = t)
    (hres : (s.cores l).res = LOCKRES_OK ∨ (s.cores l).res = LOCKRES_WAIT) :
    ∃ c' s', c.unlock s l = .ok (c'.pendingList.isEmpty && c'.runningList.isEmpty, c', s') ∧
      s'.shards = s.shards ∧ Rep SHARD_NUM strHash (s'.withCtx SHARD_NUM strHash t (some c')) ∧
      (s'.withCtx SHARD_NUM strHash t (some c')).sched SHARD_NUM strHash =
        (s.sched SHARD_NUM strHash).release l := by
  have hq : (s.sched SHARD_NUM strHash).queue t = c.queue := sched_queue_of_ctxOf hc
  have ht' : (s.sched SHARD_NUM strHash).target l = t := ht
  rcases hres with hok | hwait
  · -- a granted lock gives up the target
    obtain ⟨L, rm, c₁, hc₁, herase, hdec, hrun₁, hrm, hR₁, hsched₁⟩ :=
      LockSchedCtx.withdraw_running hR hc ht hok
    have hrel := Sched.release_eq_of_ok hok ht'
    rw [hq] at hrel
    by_cases h0 : rm = 0
    · -- the running modes drop to `0`: promote the waiters
      obtain ⟨c₂, s₂, hloop, hsh₂, hR₂, hsched₂⟩ :=
        schedPendingLoop_spec t c₁.pendingList c₁ (s.releaseLockResult l) rfl hR₁
      have hloop' : c₁.schedPendingLoop (s.releaseLockResult l) c₁.pendingList = pure (c₂, s₂) :=
        hloop
      refine ⟨c₂, s₂, ?_, hsh₂, hR₂, ?_⟩
      · simp only [LockSchedCtx.unlock, hok, herase, pure_bind, LockSchedCtx.decRunningRef, hdec]
        simp only [← hc₁]
        simp only [h0, hrm.mp h0, ne_eq, not_true_eq_false, if_false, List.length_nil,
          LockSchedCtx.schedPendingLocks, hloop', pure_bind]
        rfl
      · rw [hsched₂, hsched₁, hrel, if_neg (by rw [hrun₁, hrm.mp h0]; simp), hc₁]
        rfl
    · -- other granted locks remain: nothing is promoted
      have hne : L ≠ [] := mt hrm.mpr h0
      refine ⟨c₁, s.releaseLockResult l, ?_, rfl, hR₁, ?_⟩
      · have hfalse : (c₁.pendingList.isEmpty && c₁.runningList.isEmpty) = false := by
          rw [hc₁]; cases h : L <;> simp_all
        rw [hfalse]
        simp only [LockSchedCtx.unlock, hok, herase, pure_bind, LockSchedCtx.decRunningRef, hdec,
          ← hc₁, h0, ne_eq, not_false_eq_true, if_true]
        rfl
      · rw [hsched₁, hrel, if_pos (by rw [hrun₁]; simpa using hne)]
  · -- a waiting lock leaves the queue
    obtain ⟨L, pm, c₁, hc₁, herase, hdec, hpen₁, hpm, hR₁, hsched₁⟩ :=
      LockSchedCtx.withdraw_pending hR hc ht hwait
    have hrel := Sched.release_eq_of_wait hwait ht'
    rw [hq] at hrel
    -- the check of the debug build: the pending mask is `0` exactly when the list is empty
    have hcheck : (pm = 0 ∧ L.length = 0) ∨ (pm ≠ 0 ∧ L.length ≠ 0) := by
      by_cases h0 : pm = 0
      · exact .inl ⟨h0, by rw [hpm.mp h0]; rfl⟩
      · exact .inr ⟨h0, fun h => h0 (hpm.mpr (List.eq_nil_of_length_eq_zero h))⟩
    obtain ⟨c₂, s₂, hloop, hsh₂, hR₂, hsched₂⟩ :=
      schedPendingLoop_spec t c₁.pendingList c₁ (s.releaseLockResult l) rfl hR₁
    have hloop' : c₁.schedPendingLoop (s.releaseLockResult l) c₁.pendingList = pure (c₂, s₂) :=
      hloop
    refine ⟨c₂, s₂, ?_, hsh₂, hR₂, ?_⟩
    · simp only [LockSchedCtx.unlock, hwait, herase, pure_bind, LockSchedCtx.decPendingRef, hdec]
      simp only [← hc₁]
      simp only [hcheck, if_true, LockSchedCtx.schedPendingLocks, hloop', pure_bind]
      rfl
    · rw [hsched₂, hsched₁, hrel, hpen₁, hc₁]

/-- Dropping a context whose lists are empty changes nothing abstract. -/
theorem sched_withCtx_empty (s : MglState) (t : String) (c : LockSchedCtx) :
    (s.withCtx SHARD_NUM strHash t
        (if c.pendingList.isEmpty && c.runningList.isEmpty then none else some c)).sched
        SHARD_NUM strHash =
      (s.withCtx SHARD_NUM strHash t (some c)).sched SHARD_NUM strHash := by
  split
  · rename_i h
    rw [Bool.and_eq_true, List.isEmpty_iff, List.isEmpty_iff] at h
    simp [LockSchedCtx.queue, LockSchedCtx.init, h.1, h.2]
  · rfl

/-- `MGLockMgr::unlock` of a lock that holds or waits, whose hash is that of its target,
when the target has a context: the context unlocks, and is stored back unless empty. -/
theorem MGLockMgr.unlock_eq {s : MglState} {l : Nat} {c : LockSchedCtx}
    (hh : (s.cores l).targetHash = targetHashOf strHash (s.cores l).target)
    (hres : (s.cores l).res = LOCKRES_WAIT ∨ (s.cores l).res = LOCKRES_OK)
    (hc : s.ctxOf SHARD_NUM strHash (s.cores l).target = some c) :
    MGLockMgr.unlock SHARD_NUM s l = (do
      let (empty, c', s') ← c.unlock s l
      pure (s'.withCtx SHARD_NUM strHash (s.cores l).target (if empty then none else some c'))) := by
  have hc' : s.shards (targetHashOf strHash (s.cores l).target % SHARD_NUM) (s.cores l).target =
      some c := hc
  simp only [MGLockMgr.unlock, hh, hres, if_true, hc']
  rfl

/-- `MGLock::unlock` of a lock that holds or waits: `MGLockMgr::unlock`, then the check that
the lock holds nothing. -/
theorem MGLock.unlock_eq_of_mgr {s s' : MglState} {l : Nat}
    (hres : (s.cores l).res = LOCKRES_OK ∨ (s.cores l).res = LOCKRES_WAIT)
    (hmgr : MGLockMgr.unlock SHARD_NUM s l = .ok s') (hU : (s'.cores l).res = LOCKRES_UNINITED) :
    MGLock.unlock SHARD_NUM s l = .ok s' := by
  have hne : (s.cores l).res ≠ LOCKRES_UNINITED := by rcases hres with h | h <;> rw [h] <;> decide
  have hmgr' : MGLockMgr.unlock SHARD_NUM s l = pure s' := hmgr
  simp only [MGLock.unlock, hne, hres, hmgr', if_false, if_true, pure_bind, hU]
  rfl

/-- **Unlocking is releasing.** From a state with `RepInv`, `MGLock::unlock` passes every
check, keeps `RepInv`, and is `Sched.release`. -/
theorem unlock_spec {s : MglState} (hR : RepInv SHARD_NUM strHash s) (l : Nat) :
    ∃ s', step SHARD_NUM strHash s (.unlock l) = .ok s' ∧ RepInv SHARD_NUM strHash s' ∧
      s'.sched SHARD_NUM strHash = (s.sched SHARD_NUM strHash).release l := by
  by_cases hU : (s.cores l).res = LOCKRES_UNINITED
  · exact ⟨s, by simp only [step, MGLock.unlock, hU, if_true], hR,
      (Sched.release_of_uninited (show (s.sched SHARD_NUM strHash).res l = _ from hU)).symm⟩
  have hres : (s.cores l).res = LOCKRES_OK ∨ (s.cores l).res = LOCKRES_WAIT := by
    rcases hR.queues.res_cases l with h | h | h
    exacts [.inl h, .inr h, absurd h hU]
  -- the target holds the lock, so it has a context
  have hmem : l ∈ ((s.sched SHARD_NUM strHash).queue (s.cores l).target).running ++
      ((s.sched SHARD_NUM strHash).queue (s.cores l).target).pending := by
    rcases hres with h' | h'
    · exact List.mem_append_left _ ((hR.queues.running_iff _ l).mpr ⟨h', rfl⟩)
    · exact List.mem_append_right _ ((hR.queues.pending_iff _ l).mpr ⟨h', rfl⟩)
  obtain ⟨c, hc⟩ := exists_ctxOf_of_mem hmem
  obtain ⟨c', s', hun, hsh', hR', hsched'⟩ := LockSchedCtx.unlock_spec hR.toRep hc rfl hres
  have habs := (sched_withCtx_empty s' (s.cores l).target c').trans hsched'
  have hU' : (s'.cores l).res = LOCKRES_UNINITED := by
    have := hR.queues.release_res_self l
    rwa [← habs] at this
  have hmgr : MGLockMgr.unlock SHARD_NUM s l = .ok (s'.withCtx SHARD_NUM strHash
      (s.cores l).target (if c'.pendingList.isEmpty && c'.runningList.isEmpty then none
        else some c')) := by
    rw [MGLockMgr.unlock_eq (hR.hash l) hres.symm hc, hun]
    rfl
  refine ⟨_, MGLock.unlock_eq_of_mgr hres hmgr hU', ⟨?_, fun t => ?_, ?_⟩, habs⟩
  · refine Rep.withCtx hR' rfl le_rfl (fun _ _ => rfl) (.inr hU') (hR'.hash l) (fun c₁ hc₁ => ?_)
      (by rw [habs]; exact (hR.inv.release l).toQueues)
    split at hc₁
    · cases hc₁
    · cases hc₁
      exact (hR'.ctx _ c' (by rw [ctxOf_withCtx, if_pos rfl])).frame (fun _ _ => rfl) le_rfl
  · rw [habs]; exact (hR.inv.release l).holder t
  · refine live_withCtx hsh' hR.live fun c₁ hc₁ => ?_
    split at hc₁
    · cases hc₁
    · rename_i he
      cases hc₁
      rw [Bool.and_eq_true, List.isEmpty_iff, List.isEmpty_iff] at he
      exact (not_and_or.mp he).symm

/-! ## Runs -/

/-- A lock call on an `MGLock` that holds or waits fails the first check of `MGLock::lock`. -/
theorem step_lock_of_ne {s : MglState} {l : Nat} (hl : (s.cores l).res ≠ LOCKRES_UNINITED)
    (t : String) (m : LockMode) :
    step SHARD_NUM strHash s (.lock l t m) =
      .error "INVARIANT failed:getStatus() == LockRes::LOCKRES_UNINITED" := by
  simp only [step, MGLock.lock, hl, if_false]
  rfl

/-- **Each step refines the scheduler.** A step that succeeds from a state with `RepInv`
keeps `RepInv` and does what `Sched.step` does; a lock step succeeds only on an `MGLock`
that holds nothing. -/
theorem step_spec {s s' : MglState} (hR : RepInv SHARD_NUM strHash s) {a : Action}
    (h : step SHARD_NUM strHash s a = .ok s') :
    RepInv SHARD_NUM strHash s' ∧ s'.sched SHARD_NUM strHash = (s.sched SHARD_NUM strHash).step a ∧
      ∀ l t m, a = .lock l t m → (s.cores l).res = LOCKRES_UNINITED := by
  cases a with
  | lock l t m =>
    by_cases hl : (s.cores l).res = LOCKRES_UNINITED
    · obtain ⟨s'', h', hR', hs''⟩ := lock_spec hR hl t m
      rw [h'] at h
      cases h
      exact ⟨hR', hs'', fun _ _ _ e => by cases e; exact hl⟩
    · rw [step_lock_of_ne hl] at h
      cases h
  | unlock l =>
    obtain ⟨s'', h', hR', hs''⟩ := unlock_spec hR l
    rw [h'] at h
    cases h
    exact ⟨hR', hs'', fun _ _ _ e => by cases e⟩

/-- The start of the code is the start of the scheduler. -/
theorem sched_init : MglState.init.sched SHARD_NUM strHash = Sched.init := rfl

/-- The start is represented. -/
theorem repInv_init : RepInv SHARD_NUM strHash MglState.init where
  hash _ := by simp [MglState.init, MGLock.init, targetHashOf]
  placed _ _ _ h := by cases h
  ctx _ _ h := by cases h
  queues := by rw [sched_init]; exact Sched.inv_init.toQueues
  holder := by rw [sched_init]; exact Sched.inv_init.holder
  live _ _ h := by cases h

/-- **Reachable states are represented**, and their abstract states are reachable in the
scheduler. -/
theorem Reachable.repInv_sched {s : MglState} (h : Reachable SHARD_NUM strHash s) :
    RepInv SHARD_NUM strHash s ∧ (s.sched SHARD_NUM strHash).Reachable := by
  induction h with
  | init => exact ⟨repInv_init, by rw [sched_init]; exact .init⟩
  | step a _ hs ih =>
    obtain ⟨hR', hσ, hl⟩ := step_spec ih.1 hs
    refine ⟨hR', ?_⟩
    rw [hσ]
    cases a with
    | lock l t m => exact .acquire l t m ih.2 (hl l t m rfl)
    | unlock l => exact .release l ih.2

end Projection

end NovaDb.Mgl
