/-
# The scheduler, abstractly

What the lock manager is for, stated over lock ids and without its bookkeeping: each
target has the requests that hold it, in grant order, and those that wait, in arrival
order. A request is granted on arrival when nothing granted conflicts and nobody waits;
a release withdraws the request and then, unless some granted lock remains, grants
waiting requests from the head of the queue up to the first one that conflicts.

`Sched.Inv` is the invariant of these queues; `Sched.Inv.acquire` and
`Sched.Inv.release` show that both operations keep it. Its fields give:

* mutual exclusion (`compatible`): granted requests on a target are pairwise compatible;
* first come, first served (`pending_sorted`, `running_before`): the queue is in arrival
  order, and every granted request arrived before every waiting one;
* no stranded waiter (`holder`): a target with waiters has a holder.
-/
import NovaDb.Mgl.MglMgr
import Mathlib.Data.List.Pairwise
import Mathlib.Data.List.Nodup

namespace NovaDb.Mgl

open LockMode LockRes

/-- Two modes conflict: `isConflict(1 << a, b)`, symmetric by `isConflict_single_symm`. -/
def conflicts (a b : LockMode) : Bool := isConflict (1 <<< enum2Int a) b

/-- One target's requests by `MGLock` id: granted ones and waiting ones. -/
structure Queue where
  running : List Nat
  pending : List Nat

/-- The abstract state: each lock's target, mode and result, each target's queue, and the
arrival order. -/
@[ext]
structure Sched where
  target : Nat → String
  mode : Nat → LockMode
  res : Nat → LockRes
  queue : String → Queue
  clock : Nat
  arrival : Nat → Nat

namespace Sched

variable (σ : Sched)

/-- The queue of `t` replaced by `q`. -/
def setQueue (t : String) (q : Queue) : Sched := { σ with queue := Function.update σ.queue t q }

/-- The result of lock `l` set to `r`. -/
def setRes (l : Nat) (r : LockRes) : Sched := { σ with res := Function.update σ.res l r }

/-- Some request of `running` conflicts with mode `m`. -/
def blocks (running : List Nat) (m : LockMode) : Bool :=
  running.any fun r => conflicts (σ.mode r) m

/-- Lock `l` takes target `t` and mode `m`, and the next arrival stamp. -/
def arrive (l : Nat) (t : String) (m : LockMode) : Sched where
  target := Function.update σ.target l t
  mode := Function.update σ.mode l m
  res := σ.res
  queue := σ.queue
  clock := σ.clock + 1
  arrival := Function.update σ.arrival l σ.clock

/-- A request of `l` on `t` in mode `m` arrives. -/
def acquire (l : Nat) (t : String) (m : LockMode) : Sched :=
  let σ := σ.arrive l t m
  let q := σ.queue t
  if σ.blocks q.running m || !q.pending.isEmpty then
    (σ.setQueue t { q with pending := q.pending ++ [l] }).setRes l LOCKRES_WAIT
  else (σ.setQueue t { q with running := q.running ++ [l] }).setRes l LOCKRES_OK

/-- An arrival that is blocked, or finds waiters, joins the waiting queue. -/
theorem acquire_eq_wait {l : Nat} {t : String} {m : LockMode}
    (h : ((σ.arrive l t m).blocks (σ.queue t).running m || !(σ.queue t).pending.isEmpty) = true) :
    σ.acquire l t m = ((σ.arrive l t m).setQueue t
      { σ.queue t with pending := (σ.queue t).pending ++ [l] }).setRes l LOCKRES_WAIT :=
  if_pos h

/-- An arrival that nothing blocks and that finds no waiter is granted at once. -/
theorem acquire_eq_grant {l : Nat} {t : String} {m : LockMode}
    (h : ((σ.arrive l t m).blocks (σ.queue t).running m || !(σ.queue t).pending.isEmpty) = false) :
    σ.acquire l t m = ((σ.arrive l t m).setQueue t
      { σ.queue t with running := (σ.queue t).running ++ [l] }).setRes l LOCKRES_OK :=
  if_neg (ne_true_of_eq_false h)

/-- Grant the waiting requests of `t` from the head of the queue `pending` up to the first
that conflicts with a granted one. -/
def promote : Sched → String → List Nat → Sched
  | σ, _, [] => σ
  | σ, t, l :: rest =>
    if σ.blocks (σ.queue t).running (σ.mode l) then σ
    else ((σ.setQueue t ⟨(σ.queue t).running ++ [l], rest⟩).setRes l LOCKRES_OK).promote t rest

/-- Lock `l` is released: a granted lock gives up the target, a waiting one leaves the
queue. -/
def release (l : Nat) : Sched :=
  let t := σ.target l
  let q := σ.queue t
  match σ.res l with
  | LOCKRES_OK =>
    let σ' := (σ.setQueue t { q with running := q.running.erase l }).setRes l LOCKRES_UNINITED
    if q.running.erase l ≠ [] then σ' else σ'.promote t q.pending
  | LOCKRES_WAIT =>
    let σ' := (σ.setQueue t { q with pending := q.pending.erase l }).setRes l LOCKRES_UNINITED
    σ'.promote t (q.pending.erase l)
  | _ => σ

/-- The abstract effect of an action. -/
def step : Action → Sched
  | .lock l t m => σ.acquire l t m
  | .unlock l => σ.release l

/-- The abstract states along a list of calls; `none` once a lock call finds its lock in a
queue, a call that `MGLock::lock` refuses. -/
def run : Sched → List Action → Option Sched
  | σ, [] => some σ
  | σ, .lock l t m :: rest =>
    if σ.res l = LOCKRES_UNINITED then (σ.acquire l t m).run rest else none
  | σ, .unlock l :: rest => (σ.release l).run rest

/-! ## Field lemmas -/

@[simp] theorem setQueue_queue (t t' : String) (q : Queue) :
    (σ.setQueue t q).queue t' = if t' = t then q else σ.queue t' := by
  simp [setQueue, Function.update_apply]

@[simp] theorem setQueue_res (t : String) (q : Queue) : (σ.setQueue t q).res = σ.res := rfl
@[simp] theorem setQueue_mode (t : String) (q : Queue) : (σ.setQueue t q).mode = σ.mode := rfl
@[simp] theorem setQueue_target (t : String) (q : Queue) :
    (σ.setQueue t q).target = σ.target := rfl
@[simp] theorem setQueue_arrival (t : String) (q : Queue) :
    (σ.setQueue t q).arrival = σ.arrival := rfl
@[simp] theorem setQueue_clock (t : String) (q : Queue) : (σ.setQueue t q).clock = σ.clock := rfl

@[simp] theorem setRes_res (l l' : Nat) (r : LockRes) :
    (σ.setRes l r).res l' = if l' = l then r else σ.res l' := by
  simp [setRes, Function.update_apply]

@[simp] theorem setRes_queue (l : Nat) (r : LockRes) : (σ.setRes l r).queue = σ.queue := rfl
@[simp] theorem setRes_mode (l : Nat) (r : LockRes) : (σ.setRes l r).mode = σ.mode := rfl
@[simp] theorem setRes_target (l : Nat) (r : LockRes) : (σ.setRes l r).target = σ.target := rfl
@[simp] theorem setRes_arrival (l : Nat) (r : LockRes) :
    (σ.setRes l r).arrival = σ.arrival := rfl
@[simp] theorem setRes_clock (l : Nat) (r : LockRes) : (σ.setRes l r).clock = σ.clock := rfl

@[simp] theorem arrive_queue (l : Nat) (t : String) (m : LockMode) :
    (σ.arrive l t m).queue = σ.queue := rfl
@[simp] theorem arrive_res (l : Nat) (t : String) (m : LockMode) :
    (σ.arrive l t m).res = σ.res := rfl
@[simp] theorem arrive_clock (l : Nat) (t : String) (m : LockMode) :
    (σ.arrive l t m).clock = σ.clock + 1 := rfl

theorem arrive_target (l : Nat) (t : String) (m : LockMode) (l' : Nat) :
    (σ.arrive l t m).target l' = if l' = l then t else σ.target l' := by
  simp [arrive, Function.update_apply]

theorem arrive_mode (l : Nat) (t : String) (m : LockMode) (l' : Nat) :
    (σ.arrive l t m).mode l' = if l' = l then m else σ.mode l' := by
  simp [arrive, Function.update_apply]

theorem arrive_arrival (l : Nat) (t : String) (m : LockMode) (l' : Nat) :
    (σ.arrive l t m).arrival l' = if l' = l then σ.clock else σ.arrival l' := by
  simp [arrive, Function.update_apply]

/-- A second update of one queue overrides the first. -/
theorem setQueue_setQueue (t : String) (q q' : Queue) :
    (σ.setQueue t q).setQueue t q' = σ.setQueue t q' := by
  simp [setQueue, Function.update_idem]

/-- Setting a result and a queue commute. -/
theorem setRes_setQueue (l : Nat) (r : LockRes) (t : String) (q : Queue) :
    (σ.setQueue t q).setRes l r = (σ.setRes l r).setQueue t q := rfl

/-- A lock outside `running` may take a new mode without changing what `running` blocks. -/
theorem blocks_arrive {running : List Nat} {l : Nat} (hl : l ∉ running) (t : String)
    (m' m : LockMode) : (σ.arrive l t m').blocks running m = σ.blocks running m := by
  rw [blocks, blocks, Bool.eq_iff_iff, List.any_eq_true, List.any_eq_true]
  exact exists_congr fun r => and_congr_right fun hr => by
    rw [arrive_mode, if_neg fun (e : r = l) => hl (e ▸ hr)]

/-- Nothing blocks on an empty list. -/
theorem ne_nil_of_blocks {running : List Nat} {m : LockMode} (h : σ.blocks running m = true) :
    running ≠ [] := by
  rintro rfl; simp [blocks] at h

/-- Acquiring moves only the result of the lock that acquires, to a grant or a wait. -/
theorem acquire_res (l : Nat) (t : String) (m : LockMode) (l' : Nat) :
    (σ.acquire l t m).res l' = σ.res l' ∨ (l' = l ∧
      ((σ.acquire l t m).res l' = LOCKRES_OK ∨ (σ.acquire l t m).res l' = LOCKRES_WAIT)) := by
  by_cases e : l' = l
  · subst e; exact .inr ⟨rfl, by rw [acquire]; split <;> simp⟩
  · exact .inl (by rw [acquire]; split <;> simp [e])

/-! ## The invariant -/

/-- The invariant of the queues, all but `holder`: each granted lock is in the running
queue of its target and each waiting one in the pending queue, no lock twice, granted
locks pairwise compatible, and the arrival order respected. -/
structure Queues : Prop where
  running_iff : ∀ t l, l ∈ (σ.queue t).running ↔ σ.res l = LOCKRES_OK ∧ σ.target l = t
  pending_iff : ∀ t l, l ∈ (σ.queue t).pending ↔ σ.res l = LOCKRES_WAIT ∧ σ.target l = t
  res_cases : ∀ l, σ.res l = LOCKRES_OK ∨ σ.res l = LOCKRES_WAIT ∨ σ.res l = LOCKRES_UNINITED
  running_nodup : ∀ t, (σ.queue t).running.Nodup
  pending_nodup : ∀ t, (σ.queue t).pending.Nodup
  compatible : ∀ t,
    (σ.queue t).running.Pairwise fun a b => conflicts (σ.mode a) (σ.mode b) = false
  pending_sorted : ∀ t, (σ.queue t).pending.Pairwise fun a b => σ.arrival a < σ.arrival b
  running_before : ∀ t, ∀ a ∈ (σ.queue t).running, ∀ b ∈ (σ.queue t).pending,
    σ.arrival a < σ.arrival b
  arrived : ∀ l, σ.res l ≠ LOCKRES_UNINITED → σ.arrival l < σ.clock

/-- `Queues`, and a target with waiters has a holder. -/
structure Inv extends σ.Queues : Prop where
  holder : ∀ t, (σ.queue t).pending ≠ [] → (σ.queue t).running ≠ []

variable {σ}

/-- A lock that holds nothing is in no queue. -/
theorem Queues.not_mem_of_uninited (h : σ.Queues) {l : Nat} (hl : σ.res l = LOCKRES_UNINITED)
    (t : String) : l ∉ (σ.queue t).running ∧ l ∉ (σ.queue t).pending := by
  constructor <;> intro hm
  · simp [(h.running_iff t l).mp hm] at hl
  · simp [(h.pending_iff t l).mp hm] at hl

/-! ## Elementary moves -/

/-- A lock that is not in any queue may take a target, a mode and an arrival stamp. -/
theorem Queues.arrive (h : σ.Queues) {l : Nat} (hl : σ.res l = LOCKRES_UNINITED) (t : String)
    (m : LockMode) : (σ.arrive l t m).Queues := by
  have hne : ∀ t' l', l' ∈ (σ.queue t').running ∨ l' ∈ (σ.queue t').pending → l' ≠ l :=
    fun t' l' hm e => by subst e; rcases hm with hm | hm <;> simp_all [h.not_mem_of_uninited hl]
  refine ⟨fun t' l' => ?_, fun t' l' => ?_, by simpa using h.res_cases, by simpa using h.running_nodup,
    by simpa using h.pending_nodup, fun t' => ?_, fun t' => ?_, fun t' a ha b hb => ?_, fun l' hl' => ?_⟩
  · by_cases e : l' = l
    · subst e; simp [arrive_target, hl, (h.not_mem_of_uninited hl t').1]
    · simp [arrive_target, e, h.running_iff]
  · by_cases e : l' = l
    · subst e; simp [arrive_target, hl, (h.not_mem_of_uninited hl t').2]
    · simp [arrive_target, e, h.pending_iff]
  · refine (h.compatible t').imp_of_mem fun ha hb hab => ?_
    simpa [arrive_mode, hne t' _ (.inl ha), hne t' _ (.inl hb)] using hab
  · refine (h.pending_sorted t').imp_of_mem fun ha hb hab => ?_
    simpa [arrive_arrival, hne t' _ (.inr ha), hne t' _ (.inr hb)] using hab
  · simpa [arrive_arrival, hne t' _ (.inl ha), hne t' _ (.inr hb)] using h.running_before t' a ha b hb
  · have e : l' ≠ l := fun e => hl' (by simpa [e] using hl)
    have := h.arrived l' (by simpa using hl')
    simp [arrive_arrival, e]
    omega

/-- A lock outside every queue joins the end of its target's pending queue. -/
theorem Queues.enqueue (h : σ.Queues) {l : Nat} {t : String} (hl : σ.res l = LOCKRES_UNINITED)
    (ht : σ.target l = t) (hlast : ∀ a, σ.res a ≠ LOCKRES_UNINITED → σ.arrival a < σ.arrival l)
    (hclock : σ.arrival l < σ.clock) :
    ((σ.setQueue t { σ.queue t with pending := (σ.queue t).pending ++ [l] }).setRes l
      LOCKRES_WAIT).Queues := by
  have hn := h.not_mem_of_uninited hl
  refine ⟨fun t' l' => ?_, fun t' l' => ?_, fun l' => ?_, fun t' => ?_, fun t' => ?_,
    fun t' => ?_, fun t' => ?_, fun t' a ha b hb => ?_, fun l' hl' => ?_⟩
  · by_cases et : t' = t <;> by_cases el : l' = l <;> simp [et, el, hn, h.running_iff]
  · by_cases et : t' = t
    · subst et; by_cases el : l' = l <;> simp [el, hn, ht, h.pending_iff]
    · by_cases el : l' = l <;> simp [et, el, hn, ht, h.pending_iff, Ne.symm et]
  · by_cases el : l' = l <;> simp [el, h.res_cases]
  · by_cases et : t' = t <;> simp [et, h.running_nodup]
  · by_cases et : t' = t <;> simp [et, h.pending_nodup, List.nodup_append, hn]
  · by_cases et : t' = t <;> simp [et, h.compatible]
  · by_cases et : t' = t
    · subst et
      simp only [setRes_queue, setQueue_queue, if_true, setRes_arrival, setQueue_arrival,
        List.pairwise_append, List.pairwise_singleton, List.mem_singleton, forall_eq, and_true,
        h.pending_sorted, true_and]
      intro a ha
      exact hlast a (by simp [((h.pending_iff _ a).mp ha).1])
    · simp [et, h.pending_sorted]
  · by_cases et : t' = t
    · subst et
      simp only [setRes_queue, setQueue_queue, if_true, setRes_arrival, List.mem_append,
        List.mem_singleton] at ha hb ⊢
      rcases hb with hb | rfl
      · exact h.running_before _ a ha b hb
      · exact hlast a (by simp [((h.running_iff _ a).mp ha).1])
    · simp only [setRes_queue, setQueue_queue, et, if_false, setRes_arrival] at ha hb ⊢
      exact h.running_before t' a ha b hb
  · by_cases el : l' = l
    · subst el; simpa using hclock
    · simpa [el] using h.arrived l' (by simpa [el] using hl')

/-- A lock outside every queue is granted its target when nothing granted conflicts and
nobody waits. -/
theorem Queues.grant (h : σ.Queues) {l : Nat} {t : String} (hl : σ.res l = LOCKRES_UNINITED)
    (ht : σ.target l = t) (hfree : σ.blocks (σ.queue t).running (σ.mode l) = false)
    (hempty : (σ.queue t).pending = []) (hclock : σ.arrival l < σ.clock) :
    ((σ.setQueue t { σ.queue t with running := (σ.queue t).running ++ [l] }).setRes l
      LOCKRES_OK).Queues := by
  have hn := h.not_mem_of_uninited hl
  refine ⟨fun t' l' => ?_, fun t' l' => ?_, fun l' => ?_, fun t' => ?_, fun t' => ?_,
    fun t' => ?_, fun t' => ?_, fun t' a ha b hb => ?_, fun l' hl' => ?_⟩
  · by_cases et : t' = t
    · subst et; by_cases el : l' = l <;> simp [el, hn, ht, h.running_iff]
    · by_cases el : l' = l <;> simp [et, el, hn, ht, h.running_iff, Ne.symm et]
  · by_cases et : t' = t <;> by_cases el : l' = l <;> simp [et, el, hn, h.pending_iff]
  · by_cases el : l' = l <;> simp [el, h.res_cases]
  · by_cases et : t' = t <;> simp [et, h.running_nodup, List.nodup_append, hn]
  · by_cases et : t' = t <;> simp [et, h.pending_nodup]
  · by_cases et : t' = t
    · subst et
      simp only [setRes_queue, setQueue_queue, if_true, setRes_mode, setQueue_mode,
        List.pairwise_append, List.pairwise_singleton, List.mem_singleton, forall_eq, true_and]
      exact ⟨h.compatible _, by simpa [blocks] using hfree⟩
    · simp [et, h.compatible]
  · by_cases et : t' = t <;> simp [et, h.pending_sorted]
  · by_cases et : t' = t
    · subst et; simp [hempty] at hb
    · simp only [setRes_queue, setQueue_queue, et, if_false, setRes_arrival] at ha hb ⊢
      exact h.running_before t' a ha b hb
  · by_cases el : l' = l
    · subst el; simpa using hclock
    · simpa [el] using h.arrived l' (by simpa [el] using hl')

/-- The head of a pending queue that nothing granted conflicts with is granted. -/
theorem Queues.promoteOne (h : σ.Queues) {t : String} {l : Nat} {rest : List Nat}
    (hp : (σ.queue t).pending = l :: rest)
    (hfree : σ.blocks (σ.queue t).running (σ.mode l) = false) :
    ((σ.setQueue t ⟨(σ.queue t).running ++ [l], rest⟩).setRes l LOCKRES_OK).Queues := by
  have hwait := (h.pending_iff t l).mp (by simp [hp])
  have hnd := h.pending_nodup t
  rw [hp, List.nodup_cons] at hnd
  have hnr : ∀ t', l ∉ (σ.queue t').running := fun t' hm =>
    absurd ((h.running_iff t' l).mp hm).1 (by rw [hwait.1]; decide)
  refine ⟨fun t' l' => ?_, fun t' l' => ?_, fun l' => ?_, fun t' => ?_, fun t' => ?_,
    fun t' => ?_, fun t' => ?_, fun t' a ha b hb => ?_, fun l' hl' => ?_⟩
  · by_cases et : t' = t <;> by_cases el : l' = l
    · subst et el; simp [hwait.2]
    · subst et; simp [el, h.running_iff]
    · subst el
      simp [et, hnr t', hwait.2, Ne.symm et]
    · simp [et, el, h.running_iff]
  · by_cases et : t' = t <;> by_cases el : l' = l
    · subst et el; simp [hnd.1]
    · subst et
      have := h.pending_iff t' l'
      simp only [hp, List.mem_cons, el, false_or] at this
      simp [el, this]
    · have : l ∉ (σ.queue t').pending := fun hm =>
        et (((h.pending_iff _ _).mp hm).2.symm.trans hwait.2)
      simp [et, el, this]
    · simp [et, el, h.pending_iff]
  · by_cases el : l' = l <;> simp [el, h.res_cases]
  · by_cases et : t' = t <;> simp [et, h.running_nodup, List.nodup_append, hnr t]
  · by_cases et : t' = t <;> simp [et, h.pending_nodup, hnd.2]
  · by_cases et : t' = t
    · subst et
      simp only [setRes_queue, setQueue_queue, if_true, setRes_mode, setQueue_mode,
        List.pairwise_append, List.pairwise_singleton, List.mem_singleton, forall_eq, true_and]
      exact ⟨h.compatible _, by simpa [blocks] using hfree⟩
    · simp [et, h.compatible]
  · by_cases et : t' = t
    · subst et
      have := h.pending_sorted t'
      rw [hp, List.pairwise_cons] at this
      simpa using this.2
    · simp [et, h.pending_sorted]
  · by_cases et : t' = t
    · subst et
      simp only [setRes_queue, setQueue_queue, if_true, setRes_arrival, List.mem_append,
        List.mem_singleton] at ha hb ⊢
      have hs := h.pending_sorted t'
      rw [hp, List.pairwise_cons] at hs
      rcases ha with ha | rfl
      · exact h.running_before _ a ha b (by simp [hp, hb])
      · exact hs.1 b hb
    · simp only [setRes_queue, setQueue_queue, et, if_false, setRes_arrival] at ha hb ⊢
      exact h.running_before t' a ha b hb
  · by_cases el : l' = l
    · subst el; simpa using h.arrived l' (by simp [hwait.1])
    · simpa [el] using h.arrived l' (by simpa [el] using hl')

/-- A granted lock leaves the running queue of its target. -/
theorem Queues.withdrawRunning (h : σ.Queues) {l : Nat} (hl : σ.res l = LOCKRES_OK) :
    ((σ.setQueue (σ.target l) { σ.queue (σ.target l) with
      running := (σ.queue (σ.target l)).running.erase l }).setRes l LOCKRES_UNINITED).Queues := by
  generalize ht : σ.target l = t
  have hnp : ∀ t', l ∉ (σ.queue t').pending := fun t' hm =>
    absurd ((h.pending_iff t' l).mp hm).1 (by rw [hl]; decide)
  have hnr : ∀ t', t' ≠ t → l ∉ (σ.queue t').running := fun t' et hm =>
    et (((h.running_iff t' l).mp hm).2.symm.trans ht)
  refine ⟨fun t' l' => ?_, fun t' l' => ?_, fun l' => ?_, fun t' => ?_, fun t' => ?_,
    fun t' => ?_, fun t' => ?_, fun t' a ha b hb => ?_, fun l' hl' => ?_⟩
  · by_cases et : t' = t
    · subst et
      by_cases el : l' = l <;> simp [el, (h.running_nodup _).mem_erase_iff, h.running_iff]
    · by_cases el : l' = l <;> simp [et, el, hnr t' et, h.running_iff]
  · by_cases et : t' = t <;> by_cases el : l' = l <;> simp [et, el, hnp, h.pending_iff]
  · by_cases el : l' = l <;> simp [el, h.res_cases]
  · by_cases et : t' = t <;> simp [et, h.running_nodup, (h.running_nodup _).erase]
  · by_cases et : t' = t <;> simp [et, h.pending_nodup]
  · by_cases et : t' = t
    · subst et; simpa using (h.compatible _).sublist (List.erase_sublist _ _)
    · simp [et, h.compatible]
  · by_cases et : t' = t <;> simp [et, h.pending_sorted]
  · by_cases et : t' = t
    · subst et
      simp only [setRes_queue, setQueue_queue, if_true, setRes_arrival, setQueue_arrival] at ha hb ⊢
      exact h.running_before _ a (List.mem_of_mem_erase ha) b hb
    · simp only [setRes_queue, setQueue_queue, et, if_false, setRes_arrival] at ha hb ⊢
      exact h.running_before t' a ha b hb
  · by_cases el : l' = l
    · subst el; simp at hl'
    · simpa [el] using h.arrived l' (by simpa [el] using hl')

/-- A waiting lock leaves the pending queue of its target. -/
theorem Queues.withdrawPending (h : σ.Queues) {l : Nat} (hl : σ.res l = LOCKRES_WAIT) :
    ((σ.setQueue (σ.target l) { σ.queue (σ.target l) with
      pending := (σ.queue (σ.target l)).pending.erase l }).setRes l LOCKRES_UNINITED).Queues := by
  generalize ht : σ.target l = t
  have hnr : ∀ t', l ∉ (σ.queue t').running := fun t' hm =>
    absurd ((h.running_iff t' l).mp hm).1 (by rw [hl]; decide)
  have hnp : ∀ t', t' ≠ t → l ∉ (σ.queue t').pending := fun t' et hm =>
    et (((h.pending_iff t' l).mp hm).2.symm.trans ht)
  refine ⟨fun t' l' => ?_, fun t' l' => ?_, fun l' => ?_, fun t' => ?_, fun t' => ?_,
    fun t' => ?_, fun t' => ?_, fun t' a ha b hb => ?_, fun l' hl' => ?_⟩
  · by_cases et : t' = t <;> by_cases el : l' = l <;> simp [et, el, hnr, h.running_iff]
  · by_cases et : t' = t
    · subst et
      by_cases el : l' = l <;> simp [el, (h.pending_nodup _).mem_erase_iff, h.pending_iff]
    · by_cases el : l' = l <;> simp [et, el, hnp t' et, h.pending_iff]
  · by_cases el : l' = l <;> simp [el, h.res_cases]
  · by_cases et : t' = t <;> simp [et, h.running_nodup]
  · by_cases et : t' = t <;> simp [et, h.pending_nodup, (h.pending_nodup _).erase]
  · by_cases et : t' = t <;> simp [et, h.compatible]
  · by_cases et : t' = t
    · subst et; simpa using (h.pending_sorted _).sublist (List.erase_sublist _ _)
    · simp [et, h.pending_sorted]
  · by_cases et : t' = t
    · subst et
      simp only [setRes_queue, setQueue_queue, if_true, setRes_arrival, setQueue_arrival] at ha hb ⊢
      exact h.running_before _ a ha b (List.mem_of_mem_erase hb)
    · simp only [setRes_queue, setQueue_queue, et, if_false, setRes_arrival] at ha hb ⊢
      exact h.running_before t' a ha b hb
  · by_cases el : l' = l
    · subst el; simp at hl'
    · simpa [el] using h.arrived l' (by simpa [el] using hl')

/-! ## Promotion -/

/-- One step of promotion: the head is granted unless a granted lock blocks it. -/
theorem promote_cons (σ : Sched) (t : String) (l : Nat) (rest : List Nat) :
    σ.promote t (l :: rest) =
      if σ.blocks (σ.queue t).running (σ.mode l) then σ
      else ((σ.setQueue t ⟨(σ.queue t).running ++ [l], rest⟩).setRes l LOCKRES_OK).promote t rest :=
  rfl

/-- Promotion leaves the other targets, the modes, the targets and the arrivals alone. -/
theorem promote_frame : ∀ (σ : Sched) (t : String) (p : List Nat),
    (∀ t', t' ≠ t → (σ.promote t p).queue t' = σ.queue t') ∧ (σ.promote t p).mode = σ.mode ∧
      (σ.promote t p).target = σ.target ∧ (σ.promote t p).arrival = σ.arrival ∧
      (σ.promote t p).clock = σ.clock
  | σ, t, [] => ⟨fun _ _ => rfl, rfl, rfl, rfl, rfl⟩
  | σ, t, l :: rest => by
    rw [promote_cons]
    split
    · exact ⟨fun _ _ => rfl, rfl, rfl, rfl, rfl⟩
    · obtain ⟨hq, hm, ht, ha, hc⟩ := promote_frame
        ((σ.setQueue t ⟨(σ.queue t).running ++ [l], rest⟩).setRes l LOCKRES_OK) t rest
      exact ⟨fun t' et => by rw [hq t' et]; simp [et], hm, ht, ha, hc⟩

/-- Promotion only grants locks of the queue it runs over. -/
theorem promote_res : ∀ (σ : Sched) (t : String) (p : List Nat) (l : Nat),
    (σ.promote t p).res l = σ.res l ∨ (l ∈ p ∧ (σ.promote t p).res l = LOCKRES_OK)
  | σ, t, [], l => .inl rfl
  | σ, t, l' :: rest, l => by
    rw [promote_cons]
    split
    · exact .inl rfl
    · rcases promote_res ((σ.setQueue t ⟨(σ.queue t).running ++ [l'], rest⟩).setRes l'
        LOCKRES_OK) t rest l with h | ⟨hm, h⟩
      · by_cases el : l = l'
        · subst el; exact .inr ⟨.head _, by simpa using h⟩
        · exact .inl (by simpa [el] using h)
      · exact .inr ⟨.tail _ hm, h⟩

/-- Promotion leaves the result of a lock outside its list alone. -/
theorem promote_res_of_not_mem {σ : Sched} {t : String} {p : List Nat} {l : Nat} (hl : l ∉ p) :
    (σ.promote t p).res l = σ.res l :=
  (promote_res σ t p l).resolve_right fun h => hl h.1

/-- Promotion keeps the invariant of the queues. -/
theorem Queues.promote : ∀ {σ : Sched} {t : String} {p : List Nat}, σ.Queues →
    (σ.queue t).pending = p → (σ.promote t p).Queues
  | _, _, [], h, _ => h
  | σ, t, l :: rest, h, hp => by
    rw [promote_cons]
    split
    · exact h
    · rename_i hc
      exact Queues.promote (h.promoteOne hp (by simpa using hc)) (by simp)

/-- After promotion the queue is empty or its head conflicts with a granted lock. -/
theorem promote_pending : ∀ {σ : Sched} {t : String} {p : List Nat}, (σ.queue t).pending = p →
    ((σ.promote t p).queue t).pending = [] ∨
      ∃ l rest, ((σ.promote t p).queue t).pending = l :: rest ∧
        (σ.promote t p).blocks ((σ.promote t p).queue t).running ((σ.promote t p).mode l) = true
  | _, _, [], hp => .inl hp
  | σ, t, l :: rest, hp => by
    rw [promote_cons]
    split
    · rename_i hc; exact .inr ⟨l, rest, hp, hc⟩
    · exact promote_pending (by simp)

/-- After promotion a target with waiters has a holder. -/
theorem promote_holder {σ : Sched} {t : String} {p : List Nat} (hp : (σ.queue t).pending = p)
    (hne : ((σ.promote t p).queue t).pending ≠ []) : ((σ.promote t p).queue t).running ≠ [] := by
  rcases promote_pending hp with he | ⟨_, _, -, hb⟩
  · exact absurd he hne
  · exact ne_nil_of_blocks _ hb

/-! ## Releasing -/

/-- Releasing a granted lock: promotion runs only once no granted lock remains. -/
theorem release_eq_of_ok {l : Nat} {t : String} (h : σ.res l = LOCKRES_OK) (ht : σ.target l = t) :
    σ.release l =
      if (σ.queue t).running.erase l ≠ [] then
        (σ.setQueue t { σ.queue t with running := (σ.queue t).running.erase l }).setRes l
          LOCKRES_UNINITED
      else ((σ.setQueue t { σ.queue t with running := (σ.queue t).running.erase l }).setRes l
          LOCKRES_UNINITED).promote t (σ.queue t).pending := by
  subst ht; simp only [release, h]

/-- Withdrawing a waiting lock, and promoting the waiters left. -/
theorem release_eq_of_wait {l : Nat} {t : String} (h : σ.res l = LOCKRES_WAIT)
    (ht : σ.target l = t) :
    σ.release l = ((σ.setQueue t { σ.queue t with pending := (σ.queue t).pending.erase l }).setRes
      l LOCKRES_UNINITED).promote t ((σ.queue t).pending.erase l) := by
  subst ht; simp only [release, h]

/-- Releasing a lock that holds nothing changes nothing. -/
theorem release_of_uninited {l : Nat} (h : σ.res l = LOCKRES_UNINITED) : σ.release l = σ := by
  simp only [release, h]

/-- A release leaves the lock it releases holding nothing. -/
theorem Queues.release_res_self (h : σ.Queues) (l : Nat) :
    (σ.release l).res l = LOCKRES_UNINITED := by
  rcases h.res_cases l with hl | hl | hl
  · have hnp : l ∉ (σ.queue (σ.target l)).pending := fun hm => by
      simp [((h.pending_iff _ l).mp hm).1] at hl
    rw [release_eq_of_ok hl rfl]
    split
    · simp
    · rw [promote_res_of_not_mem (by simpa using hnp)]; simp
  · rw [release_eq_of_wait hl rfl, promote_res_of_not_mem (h.pending_nodup _).not_mem_erase]
    simp
  · rw [release_of_uninited hl]; exact hl

/-- A release returns the released lock to `LOCKRES_UNINITED`, and otherwise only grants
waiting locks. -/
theorem Queues.release_res (h : σ.Queues) (l l' : Nat) :
    (σ.release l).res l' = σ.res l' ∨ (l' = l ∧ (σ.release l).res l' = LOCKRES_UNINITED) ∨
      (σ.res l' = LOCKRES_WAIT ∧ (σ.release l).res l' = LOCKRES_OK) := by
  by_cases e : l' = l
  · subst e; exact .inr (.inl ⟨rfl, h.release_res_self l'⟩)
  rw [Sched.release]
  generalize σ.target l = t
  split
  · split
    · exact .inl (by simp [e])
    · refine (promote_res _ t _ l').elim (fun h1 => .inl (by simpa [e] using h1))
        fun h1 => .inr (.inr ⟨((h.pending_iff t l').mp h1.1).1, h1.2⟩)
  · refine (promote_res _ t _ l').elim (fun h1 => .inl (by simpa [e] using h1))
      fun h1 => .inr (.inr ⟨((h.pending_iff t l').mp (List.mem_of_mem_erase h1.1)).1, h1.2⟩)
  · exact .inl rfl

/-- The release of a waiter, or of the last granted lock on its target, ends with the
queue empty or its head blocked. -/
theorem release_pending {l : Nat} {t : String} (ht : σ.target l = t)
    (hl : σ.res l = LOCKRES_WAIT ∨ (σ.res l = LOCKRES_OK ∧ (σ.queue t).running.erase l = [])) :
    ((σ.release l).queue t).pending = [] ∨
      ∃ l' rest, ((σ.release l).queue t).pending = l' :: rest ∧
        (σ.release l).blocks ((σ.release l).queue t).running ((σ.release l).mode l') = true := by
  rcases hl with hl | ⟨hl, he⟩
  · rw [release_eq_of_wait hl ht]; exact promote_pending (by simp)
  · rw [release_eq_of_ok hl ht, if_neg (not_not.mpr he)]; exact promote_pending (by simp)

/-- The release of a granted lock while another granted lock on its target remains grants
nothing: the waiting queue stays as it was. -/
theorem release_pending_of_ne_nil {l : Nat} {t : String} (ht : σ.target l = t)
    (hl : σ.res l = LOCKRES_OK) (hne : (σ.queue t).running.erase l ≠ []) :
    ((σ.release l).queue t).pending = (σ.queue t).pending := by
  rw [release_eq_of_ok hl ht, if_pos hne]; simp

/-! ## The operations keep the invariant -/

/-- **Acquiring keeps the invariant**, for a lock outside every queue. -/
theorem Inv.acquire (h : σ.Inv) {l : Nat} (hl : σ.res l = LOCKRES_UNINITED) (t : String)
    (m : LockMode) : (σ.acquire l t m).Inv := by
  have h1 := h.arrive hl t m
  have hl1 : (σ.arrive l t m).res l = LOCKRES_UNINITED := hl
  have ht1 : (σ.arrive l t m).target l = t := by simp [arrive_target]
  have hlast : ∀ a, (σ.arrive l t m).res a ≠ LOCKRES_UNINITED →
      (σ.arrive l t m).arrival a < (σ.arrive l t m).arrival l := fun a ha => by
    have e : a ≠ l := fun e => ha (e ▸ hl1)
    simpa [arrive_arrival, e] using h.arrived a (by simpa using ha)
  have hclock : (σ.arrive l t m).arrival l < (σ.arrive l t m).clock := by simp [arrive_arrival]
  rw [Sched.acquire]
  split
  · rename_i hc
    refine ⟨h1.enqueue hl1 ht1 hlast hclock, fun t' hne => ?_⟩
    by_cases et : t' = t
    · subst et
      simp only [Bool.or_eq_true, Bool.not_eq_true', List.isEmpty_eq_false] at hc
      rcases hc with hc | hc
      · simpa using (σ.arrive l t' m).ne_nil_of_blocks hc
      · simpa using h.holder t' (by simpa using hc)
    · simpa [et] using h.holder t' (by simpa [et] using hne)
  · rename_i hc
    simp only [Bool.or_eq_true, Bool.not_eq_true', List.isEmpty_eq_false, not_or,
      Bool.not_eq_true, ne_eq, not_not] at hc
    have hm1 : (σ.arrive l t m).mode l = m := by simp [arrive_mode]
    refine ⟨h1.grant hl1 ht1 (by rw [hm1]; simpa using hc.1) (by simpa using hc.2) hclock,
      fun t' hne => ?_⟩
    by_cases et : t' = t
    · subst et; simp
    · simpa [et] using h.holder t' (by simpa [et] using hne)

/-- **Releasing keeps the invariant.** -/
theorem Inv.release (h : σ.Inv) (l : Nat) : (σ.release l).Inv := by
  rw [Sched.release]
  generalize ht : σ.target l = t
  split
  · rename_i hl
    have hq := h.withdrawRunning hl
    rw [ht] at hq
    split
    · rename_i hne
      refine ⟨hq, fun t' hp => ?_⟩
      by_cases et : t' = t
      · subst et; simpa using hne
      · simpa [et] using h.holder t' (by simpa [et] using hp)
    · refine ⟨hq.promote (by simp), fun t' hp => ?_⟩
      by_cases et : t' = t
      · subst et; exact promote_holder (by simp) hp
      · rw [(promote_frame _ _ _).1 t' et] at hp ⊢
        simp only [setRes_queue, setQueue_queue, et, if_false] at hp ⊢
        exact h.holder t' hp
  · rename_i hl
    have hq := h.withdrawPending hl
    rw [ht] at hq
    refine ⟨hq.promote (by simp), fun t' hp => ?_⟩
    by_cases et : t' = t
    · subst et; exact promote_holder (by simp) hp
    · rw [(promote_frame _ _ _).1 t' et] at hp ⊢
      simp only [setRes_queue, setQueue_queue, et, if_false] at hp ⊢
      exact h.holder t' hp
  · exact h

/-! ## Runs -/

/-- No request anywhere: every lock uninitialised, on target `""` in mode `LOCK_NONE`. -/
def init : Sched :=
  ⟨fun _ => "", fun _ => LOCK_NONE, fun _ => LOCKRES_UNINITED, fun _ => ⟨[], []⟩, 0, fun _ => 0⟩

/-- The start has the invariant. -/
theorem inv_init : init.Inv where
  running_iff _ _ := by simp [init]
  pending_iff _ _ := by simp [init]
  res_cases _ := by simp [init]
  running_nodup _ := List.nodup_nil
  pending_nodup _ := List.nodup_nil
  compatible _ := List.Pairwise.nil
  pending_sorted _ := List.Pairwise.nil
  running_before _ _ ha := by simp [init] at ha
  arrived _ h := absurd rfl h
  holder _ h := absurd rfl h

/-- The states reached from `init`, a lock being acquired only while it is in no queue. -/
inductive Reachable : Sched → Prop where
  | init : Reachable init
  | acquire {σ : Sched} (l : Nat) (t : String) (m : LockMode) : Reachable σ →
      σ.res l = LOCKRES_UNINITED → Reachable (σ.acquire l t m)
  | release {σ : Sched} (l : Nat) : Reachable σ → Reachable (σ.release l)

/-- **Every reachable state has the invariant.** -/
theorem Reachable.inv (h : σ.Reachable) : σ.Inv := by
  induction h with
  | init => exact inv_init
  | acquire l t m _ hl ih => exact ih.acquire hl t m
  | release l _ ih => exact ih.release l

/-! ## What the invariant says -/

/-- **Mutual exclusion.** Two distinct granted locks on one target have compatible modes. -/
theorem Inv.conflicts_eq_false (h : σ.Inv) {a b : Nat} (hab : a ≠ b) (ha : σ.res a = LOCKRES_OK)
    (hb : σ.res b = LOCKRES_OK) (ht : σ.target a = σ.target b) :
    conflicts (σ.mode a) (σ.mode b) = false := by
  have hsymm : Symmetric fun a b => conflicts (σ.mode a) (σ.mode b) = false := fun a b hab => by
    simp only [conflicts] at hab ⊢
    rwa [isConflict_single_symm]
  exact (h.compatible (σ.target b)).forall hsymm ((h.running_iff _ a).mpr ⟨ha, ht⟩)
    ((h.running_iff _ b).mpr ⟨hb, rfl⟩) hab

/-- **No overtaking.** A granted lock arrived before every lock waiting on its target. -/
theorem Inv.arrival_lt (h : σ.Inv) {a b : Nat} (ha : σ.res a = LOCKRES_OK)
    (hb : σ.res b = LOCKRES_WAIT) (ht : σ.target a = σ.target b) : σ.arrival a < σ.arrival b :=
  h.running_before _ a ((h.running_iff _ a).mpr ⟨ha, ht⟩) b ((h.pending_iff _ b).mpr ⟨hb, rfl⟩)

end Sched

end NovaDb.Mgl
