/-
# Safety of the lock manager

What the refinement of `NovaDb.Mgl.Refinement` gives for the code. In every state that
`MGLock::lock` and `MGLock::unlock` reach, in any interleaving of their atomic steps:

* `Reachable.mutual_exclusion` : two granted locks on one target have compatible modes;
* `Reachable.representation` : each `LockSchedCtx` keeps its lists, counts and masks in
  step, a shard holds a context for a target exactly while some lock on it holds or waits,
  every `INVARIANT` and `INVARIANT_D` of a lock or unlock call passes, and the result of an
  `MGLock` moves only from `LOCKRES_UNINITED` to `LOCKRES_OK` or `LOCKRES_WAIT`, from
  `LOCKRES_WAIT` to `LOCKRES_OK`, and back through its own unlock;
* `Reachable.fifo` : waiters queue in the order of their lock calls, and no granted lock
  made its call after a lock that waits on its target;
* `unlock_promotes` : the withdrawal of a waiter, or the release of the last
  granted lock on a target, promotes waiters up to the first that conflicts, while the
  release of a granted lock that leaves another granted lock promotes nothing;
  `exists_compatible_head` reaches a head that waits behind compatible holders.

Concrete runs are replayed on the abstract scheduler: `run_refines` lifts an abstract run
whose lock calls find their locks free to a run of the code, for every shard count and
hash.
-/
import NovaDb.Mgl.Refinement

namespace NovaDb.Mgl

open LockMode LockRes

section Safety

variable (SHARD_NUM : Nat) (strHash : String → Nat)

/-! ## Runs -/

/-- The calls of a list, one step after another, up to the first that fails. -/
def run (s : MglState) : List Action → Except String MglState
  | [] => .ok s
  | a :: rest => do
    let s ← step SHARD_NUM strHash s a
    run s rest

variable {SHARD_NUM strHash}

/-- A run from a reachable state that passes every step ends in a reachable state. -/
theorem reachable_of_run : ∀ {s s' : MglState} {l : List Action},
    Reachable SHARD_NUM strHash s → run SHARD_NUM strHash s l = .ok s' →
      Reachable SHARD_NUM strHash s'
  | _, _, [], hs, h => by cases h; exact hs
  | s, _, a :: rest, hs, h => by
    cases ha : step SHARD_NUM strHash s a with
    | error e => rw [run, ha] at h; cases h
    | ok s₁ => rw [run, ha] at h; exact reachable_of_run (.step a hs ha) h

/-- **Runs refine.** From a state with `RepInv`, a list of calls whose abstract run finds
the lock of each lock call free passes every step of the code, keeps `RepInv`, and ends in
the state the abstract run ends in. -/
theorem run_refines : ∀ {s : MglState} {l : List Action} {σ' : Sched},
    RepInv SHARD_NUM strHash s → (s.sched SHARD_NUM strHash).run l = some σ' →
      ∃ s', run SHARD_NUM strHash s l = .ok s' ∧ RepInv SHARD_NUM strHash s' ∧
        s'.sched SHARD_NUM strHash = σ'
  | s, [], _, hR, h => ⟨s, rfl, hR, Option.some.inj h⟩
  | s, .lock l t m :: rest, _, hR, h => by
    rw [Sched.run] at h
    split at h
    · rename_i hl
      obtain ⟨s₁, h₁, hR₁, hσ₁⟩ := lock_spec hR hl t m
      rw [← hσ₁] at h
      obtain ⟨s', h', hR', hσ'⟩ := run_refines hR₁ h
      exact ⟨s', by rw [run, h₁]; exact h', hR', hσ'⟩
    · cases h
  | s, .unlock l :: rest, _, hR, h => by
    obtain ⟨s₁, h₁, hR₁, hσ₁⟩ := unlock_spec hR l
    rw [Sched.run, ← hσ₁] at h
    obtain ⟨s', h', hR', hσ'⟩ := run_refines hR₁ h
    exact ⟨s', by rw [run, h₁]; exact h', hR', hσ'⟩

variable (SHARD_NUM strHash) in
/-- An abstract run from the start whose lock calls find their locks free, and whose last
state passes the test `P`, is a run of the code: it reaches a state with `RepInv` whose
abstract state passes `P`. -/
theorem exists_reachable_of_run (l : List Action) (P : Sched → Bool)
    (h : (Sched.init.run l).any P = true) :
    ∃ s, Reachable SHARD_NUM strHash s ∧ RepInv SHARD_NUM strHash s ∧
      P (s.sched SHARD_NUM strHash) = true := by
  cases hr : Sched.init.run l with
  | none => rw [hr] at h; cases h
  | some σ' =>
    rw [hr] at h
    have hR₀ : RepInv SHARD_NUM strHash MglState.init := repInv_init
    obtain ⟨s, hs, hR, rfl⟩ := run_refines hR₀ (by rw [sched_init]; exact hr)
    exact ⟨s, reachable_of_run .init hs, hR, h⟩

/-! ## Mutual exclusion -/

/-- **Mutual exclusion.** In every reachable state, two distinct granted `MGLock`s on one
target have modes that do not conflict. -/
theorem Reachable.mutual_exclusion {s : MglState} (h : Reachable SHARD_NUM strHash s)
    {a b : Nat} (hab : a ≠ b) (ha : (s.cores a).res = LOCKRES_OK)
    (hb : (s.cores b).res = LOCKRES_OK) (ht : (s.cores a).target = (s.cores b).target) :
    isConflict (1 <<< enum2Int (s.cores a).mode) (s.cores b).mode = false :=
  h.repInv_sched.2.inv.conflicts_eq_false hab ha hb ht

/-- `IS` and then `IX` on one target are both granted, and do not conflict. -/
theorem mutual_exclusion_intents :
    ∃ s, Reachable 4 String.length s ∧ (s.cores 0).res = LOCKRES_OK ∧
      (s.cores 1).res = LOCKRES_OK ∧ (s.cores 0).target = (s.cores 1).target ∧
      isConflict (1 <<< enum2Int (s.cores 0).mode) (s.cores 1).mode = false := by
  obtain ⟨s, hs, -, hP⟩ := exists_reachable_of_run 4 String.length
    [.lock 0 "t" LOCK_IS, .lock 1 "t" LOCK_IX]
    (fun σ => σ.res 0 == LOCKRES_OK && σ.res 1 == LOCKRES_OK && σ.target 0 == σ.target 1)
    (by decide)
  simp only [Bool.and_eq_true, beq_iff_eq] at hP
  obtain ⟨⟨h0, h1⟩, ht⟩ := hP
  exact ⟨s, hs, h0, h1, ht, hs.mutual_exclusion (by decide) h0 h1 ht⟩

/-! ## The representation invariant -/

/-- How one call may move the result of `MGLock` `l`: its own lock call takes it from
`LOCKRES_UNINITED` to `LOCKRES_OK` or `LOCKRES_WAIT`, a call may grant it from
`LOCKRES_WAIT`, and only its own unlock call returns it to `LOCKRES_UNINITED`. -/
def ResMove (a : Action) (l : Nat) (r r' : LockRes) : Prop :=
  r' = r ∨
    (r = LOCKRES_UNINITED ∧ (r' = LOCKRES_OK ∨ r' = LOCKRES_WAIT) ∧ ∃ t m, a = .lock l t m) ∨
    (r = LOCKRES_WAIT ∧ r' = LOCKRES_OK) ∨ (r' = LOCKRES_UNINITED ∧ a = .unlock l)

/-- A step that succeeds from a state with `RepInv` moves each result only as `ResMove`
allows. -/
theorem RepInv.resMove {s s' : MglState} (hR : RepInv SHARD_NUM strHash s) {a : Action}
    (h : step SHARD_NUM strHash s a = .ok s') (l' : Nat) :
    ResMove a l' (s.cores l').res (s'.cores l').res := by
  obtain ⟨-, hσ, hfree⟩ := step_spec hR h
  have hres : (s'.cores l').res = ((s.sched SHARD_NUM strHash).step a).res l' :=
    congrArg (·.res l') hσ
  rw [hres, ResMove]
  cases a with
  | lock l t m =>
    rcases (s.sched SHARD_NUM strHash).acquire_res l t m l' with e | ⟨rfl, e⟩
    · exact .inl e
    · exact .inr (.inl ⟨hfree _ t m rfl, e, t, m, rfl⟩)
  | unlock l =>
    rcases hR.queues.release_res l l' with e | ⟨rfl, e⟩ | e
    · exact .inl e
    · exact .inr (.inr (.inr ⟨e, rfl⟩))
    · exact .inr (.inr (.inl e))

/-- In a state with `RepInv`, the nodes of the stored context of `t` belong to `MGLock`s on
`t`, granted in `_runningList` and waiting in `_pendingList`, none twice; and the context
has a holder when it has a waiter. -/
theorem RepInv.ctx_lists {s : MglState} (hR : RepInv SHARD_NUM strHash s) {t : String}
    {c : LockSchedCtx} (hc : s.ctxOf SHARD_NUM strHash t = some c) :
    (∀ n ∈ c.runningList, (s.cores n.core).res = LOCKRES_OK ∧ (s.cores n.core).target = t) ∧
    (∀ n ∈ c.pendingList, (s.cores n.core).res = LOCKRES_WAIT ∧ (s.cores n.core).target = t) ∧
    ((c.runningList ++ c.pendingList).map (·.core)).Nodup ∧
    (c.pendingList ≠ [] → c.runningList ≠ []) := by
  have hq := sched_queue_of_ctxOf hc
  have hrun : ∀ n ∈ c.runningList,
      (s.cores n.core).res = LOCKRES_OK ∧ (s.cores n.core).target = t := fun n hn =>
    (hR.queues.running_iff t n.core).mp (by rw [hq]; exact List.mem_map_of_mem _ hn)
  have hpen : ∀ n ∈ c.pendingList,
      (s.cores n.core).res = LOCKRES_WAIT ∧ (s.cores n.core).target = t := fun n hn =>
    (hR.queues.pending_iff t n.core).mp (by rw [hq]; exact List.mem_map_of_mem _ hn)
  refine ⟨hrun, hpen, ?_, fun hp => ?_⟩
  · have hnr := hR.queues.running_nodup t
    have hnp := hR.queues.pending_nodup t
    rw [hq] at hnr hnp
    rw [List.map_append, List.nodup_append]
    refine ⟨hnr, hnp, ?_⟩
    -- a granted lock does not wait
    intro x hx hy
    obtain ⟨n, hn, rfl⟩ := List.mem_map.mp hx
    obtain ⟨n', hn', e⟩ := List.mem_map.mp hy
    have := (hpen n' hn').1
    rw [e, (hrun n hn).1] at this
    cases this
  · have := hR.holder t (by rw [hq]; simpa using hp)
    rw [hq] at this
    simpa using this

/-- In a state with `RepInv`, a shard holds a context for `t` exactly while some `MGLock`
on `t` holds or waits. -/
theorem RepInv.stored_iff {s : MglState} (hR : RepInv SHARD_NUM strHash s) (t : String) :
    (∃ i c, s.shards i t = some c) ↔
      ∃ l, (s.cores l).target = t ∧ (s.cores l).res ≠ LOCKRES_UNINITED := by
  constructor
  · rintro ⟨i, c, hc⟩
    have hc' : s.ctxOf SHARD_NUM strHash t = some c := by
      rw [MglState.ctxOf, ← hR.placed i t c hc]; exact hc
    obtain ⟨n, hn⟩ := List.exists_mem_of_ne_nil (c.runningList ++ c.pendingList) (by
      rcases hR.live t c hc' with h | h <;> simp [h])
    have hact := hR.active_of_mem hc' hn
    exact ⟨n.core, hact.2, hact.1⟩
  · rintro ⟨l, ht, hl⟩
    have hmem : l ∈ ((s.sched SHARD_NUM strHash).queue t).running ++
        ((s.sched SHARD_NUM strHash).queue t).pending := by
      rcases hR.queues.res_cases l with h | h | h
      · exact List.mem_append_left _ ((hR.queues.running_iff t l).mpr ⟨h, ht⟩)
      · exact List.mem_append_right _ ((hR.queues.pending_iff t l).mpr ⟨h, ht⟩)
      · exact absurd h hl
    obtain ⟨c, hc⟩ := exists_ctxOf_of_mem hmem
    exact ⟨_, c, hc⟩

variable (SHARD_NUM strHash) in
/-- The representation invariant of a state of the lock manager. -/
structure Representation (s : MglState) : Prop where
  /-- Each stored context has counts and masks that are those of its lists, and nodes that
  are the `_resIter` of their own `MGLock`s, which are on its target, granted in
  `_runningList` and waiting in `_pendingList`; no `MGLock` is in it twice, and it has a
  holder when it has a waiter. -/
  ctx : ∀ t c, s.ctxOf SHARD_NUM strHash t = some c → CtxOk s c ∧
    (∀ n ∈ c.runningList, (s.cores n.core).res = LOCKRES_OK ∧ (s.cores n.core).target = t) ∧
    (∀ n ∈ c.pendingList, (s.cores n.core).res = LOCKRES_WAIT ∧ (s.cores n.core).target = t) ∧
    ((c.runningList ++ c.pendingList).map (·.core)).Nodup ∧
    (c.pendingList ≠ [] → c.runningList ≠ [])
  /-- A shard holds a context for `t` exactly while some `MGLock` on `t` holds or waits. -/
  stored_iff : ∀ t, (∃ i c, s.shards i t = some c) ↔
    ∃ l, (s.cores l).target = t ∧ (s.cores l).res ≠ LOCKRES_UNINITED
  /-- Every check of a lock call on an `MGLock` that holds nothing passes. -/
  lock_ok : ∀ l t m, (s.cores l).res = LOCKRES_UNINITED →
    ∃ s', step SHARD_NUM strHash s (.lock l t m) = .ok s'
  /-- Every check of an unlock call passes. -/
  unlock_ok : ∀ l, ∃ s', step SHARD_NUM strHash s (.unlock l) = .ok s'
  /-- A step moves the result of each `MGLock` only as `ResMove` allows. -/
  moves : ∀ a s', step SHARD_NUM strHash s a = .ok s' →
    ∀ l, ResMove a l (s.cores l).res (s'.cores l).res

/-- **The representation invariant.** Every reachable state has it. -/
theorem Reachable.representation {s : MglState} (h : Reachable SHARD_NUM strHash s) :
    Representation SHARD_NUM strHash s := by
  have hR := h.repInv_sched.1
  exact ⟨fun t c hc => ⟨hR.ctx t c hc, hR.ctx_lists hc⟩, hR.stored_iff,
    fun l t m hl => (lock_spec hR hl t m).imp fun _ h => h.1,
    fun l => (unlock_spec hR l).imp fun _ h => h.1, fun _ _ hs => hR.resMove hs⟩

/-- `X` is granted and `S` waits behind it; the state has the representation invariant. -/
theorem representation_with_waiter :
    ∃ s, Reachable 4 String.length s ∧ (s.cores 1).res = LOCKRES_WAIT ∧
      Representation 4 String.length s := by
  obtain ⟨s, hs, -, hP⟩ := exists_reachable_of_run 4 String.length
    [.lock 0 "t" LOCK_X, .lock 1 "t" LOCK_S] (fun σ => σ.res 1 == LOCKRES_WAIT) (by decide)
  exact ⟨s, hs, beq_iff_eq.mp hP, hs.representation⟩

/-! ## First come, first served -/

/-- **First come, first served.** In every reachable state, the waiters of each stored
context are in the order of their lock calls, and no granted `MGLock` made its lock call
after an `MGLock` that waits on its target. -/
theorem Reachable.fifo {s : MglState} (h : Reachable SHARD_NUM strHash s) :
    (∀ t c, s.ctxOf SHARD_NUM strHash t = some c →
      (c.pendingList.map (·.core)).Pairwise fun a b => s.arrival a < s.arrival b) ∧
    ∀ a b, (s.cores a).res = LOCKRES_OK → (s.cores b).res = LOCKRES_WAIT →
      (s.cores a).target = (s.cores b).target → s.arrival a < s.arrival b := by
  have hI := h.repInv_sched.2.inv
  exact ⟨fun t c hc => by simpa only [sched_queue_of_ctxOf hc] using hI.pending_sorted t,
    fun a b ha hb ht => hI.arrival_lt ha hb ht⟩

/-- `S` is granted, then `X` waits, and `IS` waits behind `X` although `S` does not block it;
the granted `S` made its call first. -/
theorem fifo_reader_behind_writer :
    ∃ s, Reachable 4 String.length s ∧ (s.cores 0).res = LOCKRES_OK ∧
      (s.cores 2).res = LOCKRES_WAIT ∧ (s.cores 2).mode = LOCK_IS ∧
      s.arrival 0 < s.arrival 2 := by
  obtain ⟨s, hs, -, hP⟩ := exists_reachable_of_run 4 String.length
    [.lock 0 "t" LOCK_S, .lock 1 "t" LOCK_X, .lock 2 "t" LOCK_IS]
    (fun σ => σ.res 0 == LOCKRES_OK && σ.res 2 == LOCKRES_WAIT && σ.mode 2 == LOCK_IS &&
      σ.target 0 == σ.target 2) (by decide)
  simp only [Bool.and_eq_true, beq_iff_eq] at hP
  obtain ⟨⟨⟨h0, h2⟩, hm⟩, ht⟩ := hP
  exact ⟨s, hs, h0, h2, hm, hs.fifo.2 0 2 h0 h2 ht⟩

/-! ## Promotion on release -/

/-- For every shard count and hash: `IX` and `IS` are granted on `"t"`, `S` waits behind
`IX`, and `IX` is released. `IS` still holds, so `_runningModes` is not `0` and
`schedPendingLocks` is not called: the head `S` of `_pendingList` waits although it
conflicts with no running mode. -/
theorem exists_compatible_head (SHARD_NUM : Nat) (strHash : String → Nat) :
    ∃ s, Reachable SHARD_NUM strHash s ∧ ∃ c n rest, s.ctxOf SHARD_NUM strHash "t" = some c ∧
      c.pendingList = n :: rest ∧ isConflict c.runningModes (s.cores n.core).mode = false := by
  obtain ⟨s, hs, hR, hP⟩ := exists_reachable_of_run SHARD_NUM strHash
    [.lock 0 "t" LOCK_IX, .lock 1 "t" LOCK_IS, .lock 2 "t" LOCK_S, .unlock 0]
    (fun σ => (σ.queue "t").running == [1] && (σ.queue "t").pending == [2] &&
      σ.mode 1 == LOCK_IS && σ.mode 2 == LOCK_S) (by decide)
  simp only [Bool.and_eq_true, beq_iff_eq] at hP
  obtain ⟨⟨⟨hrun, hpen⟩, hm1⟩, hm2⟩ := hP
  have hmem : 2 ∈ ((s.sched SHARD_NUM strHash).queue "t").running ++
      ((s.sched SHARD_NUM strHash).queue "t").pending := by simp [hpen]
  obtain ⟨c, hc⟩ := exists_ctxOf_of_mem hmem
  rw [sched_queue_of_ctxOf hc, LockSchedCtx.queue_running] at hrun
  rw [sched_queue_of_ctxOf hc, LockSchedCtx.queue_pending, List.map_eq_cons_iff] at hpen
  obtain ⟨n, rest, hn, hn2, -⟩ := hpen
  have hfree : (s.sched SHARD_NUM strHash).blocks [1] LOCK_S = false := by
    simp only [Sched.blocks, List.any_cons, List.any_nil, Bool.or_false, hm1]
    decide
  have hb : (s.sched SHARD_NUM strHash).blocks (c.runningList.map (·.core)) (s.cores 2).mode =
      isConflict c.runningModes (s.cores 2).mode := sched_blocks (hR.ctx _ c hc).running _
  have hm2' : (s.cores 2).mode = LOCK_S := hm2
  refine ⟨s, hs, c, n, rest, hc, hn, ?_⟩
  rw [hn2, ← hb, hrun, hm2']
  exact hfree

/-- **A compatible head left waiting**, here with four shards and `String.length` for the
hash; `exists_compatible_head` gives it for every shard count and hash. -/
theorem release_leaves_compatible_head :
    ∃ s, Reachable 4 String.length s ∧ ∃ c n rest, s.ctxOf 4 String.length "t" = some c ∧
      c.pendingList = n :: rest ∧ isConflict c.runningModes (s.cores n.core).mode = false :=
  exists_compatible_head 4 String.length

/-- **What a release promotes.** From a reachable state, the unlock call of an `MGLock` `l`
on target `t` passes. If `l` waited, or was the only granted lock on `t`, the waiting queue
of `t` is then empty or its head conflicts with `_runningModes`. If another granted lock
on `t` remains, nothing is promoted: the same `MGLock`s wait, in the same order. -/
theorem unlock_promotes {s : MglState} (h : Reachable SHARD_NUM strHash s) (l : Nat) :
    ∃ s', step SHARD_NUM strHash s (.unlock l) = .ok s' ∧
      ((s.cores l).res = LOCKRES_WAIT ∨ ((s.cores l).res = LOCKRES_OK ∧
          ∀ l', (s.cores l').res = LOCKRES_OK → (s.cores l').target = (s.cores l).target →
            l' = l) →
        ∀ c, s'.ctxOf SHARD_NUM strHash (s.cores l).target = some c → ∀ n rest,
          c.pendingList = n :: rest → isConflict c.runningModes (s'.cores n.core).mode = true) ∧
      ((s.cores l).res = LOCKRES_OK → (∃ l', l' ≠ l ∧ (s.cores l').res = LOCKRES_OK ∧
          (s.cores l').target = (s.cores l).target) →
        ∀ c c', s.ctxOf SHARD_NUM strHash (s.cores l).target = some c →
          s'.ctxOf SHARD_NUM strHash (s.cores l).target = some c' →
          c'.pendingList.map (·.core) = c.pendingList.map (·.core)) := by
  have hR := h.repInv_sched.1
  obtain ⟨s', hs', hR', hσ⟩ := unlock_spec hR l
  have ht : (s.sched SHARD_NUM strHash).target l = (s.cores l).target := rfl
  refine ⟨s', hs', fun hl c hc n rest hn => ?_, fun hok ⟨l', hne, hok', ht'⟩ c c' hc hc' => ?_⟩
  · -- the abstract release ends with the queue empty or its head blocked
    have hl' : (s.sched SHARD_NUM strHash).res l = LOCKRES_WAIT ∨
        ((s.sched SHARD_NUM strHash).res l = LOCKRES_OK ∧
          ((s.sched SHARD_NUM strHash).queue (s.cores l).target).running.erase l = []) := by
      refine hl.imp id fun ⟨hok, honly⟩ => ⟨hok, List.eq_nil_iff_forall_not_mem.mpr
        fun x hx => ?_⟩
      have hx' := (hR.queues.running_iff _ x).mp (List.mem_of_mem_erase hx)
      rw [honly x hx'.1 hx'.2] at hx
      exact (hR.queues.running_nodup _).not_mem_erase hx
    have hq := sched_queue_of_ctxOf hc
    rcases Sched.release_pending ht hl' with he | ⟨l₀, rest₀, hp, hb⟩
    · rw [← hσ, hq, LockSchedCtx.queue_pending, hn] at he
      cases he
    · rw [← hσ, hq, LockSchedCtx.queue_pending, hn, List.map_cons, List.cons.injEq] at hp
      rw [← hσ, hq, LockSchedCtx.queue_running, sched_blocks (hR'.ctx _ c hc).running,
        ← hp.1] at hb
      exact hb
  · -- another granted lock remains: the waiting queue is as it was
    have hne' : ((s.sched SHARD_NUM strHash).queue (s.cores l).target).running.erase l ≠ [] :=
      List.ne_nil_of_mem (List.mem_erase_of_ne hne |>.mpr
        ((hR.queues.running_iff _ l').mpr ⟨hok', ht'⟩))
    have := Sched.release_pending_of_ne_nil ht hok hne'
    rwa [← hσ, sched_queue_of_ctxOf hc', sched_queue_of_ctxOf hc] at this

/-- `X` is granted and two `S` wait; the first `S` withdraws, and the head `S` left conflicts
with the granted `X`. -/
theorem unlock_promotes_withdrawn :
    ∃ s, Reachable 4 String.length s ∧ (s.cores 1).res = LOCKRES_WAIT ∧
      ∃ s', step 4 String.length s (.unlock 1) = .ok s' ∧
        ∀ c, s'.ctxOf 4 String.length "t" = some c → ∀ n rest, c.pendingList = n :: rest →
          isConflict c.runningModes (s'.cores n.core).mode = true := by
  obtain ⟨s, hs, -, hP⟩ := exists_reachable_of_run 4 String.length
    [.lock 0 "t" LOCK_X, .lock 1 "t" LOCK_S, .lock 2 "t" LOCK_S]
    (fun σ => σ.res 1 == LOCKRES_WAIT && σ.target 1 == "t") (by decide)
  simp only [Bool.and_eq_true, beq_iff_eq] at hP
  obtain ⟨hw, ht⟩ := hP
  obtain ⟨s', hs', hprom, -⟩ := unlock_promotes hs 1
  have ht' : (s.cores 1).target = "t" := ht
  refine ⟨s, hs, hw, s', hs', ?_⟩
  rw [← ht']
  exact hprom (.inl hw)

end Safety

end NovaDb.Mgl
