/-
# Progress of the lock manager

Safety says what granted locks never do; this file says that a waiting lock is not passed
over. The scheduler grants in arrival order and grants nothing to a newcomer while anybody
waits (the `!_pendingList.empty()` test of `LockSchedCtx::lock`), so the locks ahead of a
waiter `w` — those on its target that are granted, or that wait since an earlier lock
call — only leave, and never join:

* `Sched.Inv.ahead_acquire` : a lock call puts nothing ahead of `w`;
* `Sched.Inv.ahead_release` : an unlock call grants `w`, or leaves it waiting with the
  released lock no longer ahead and nothing new ahead;
* `Sched.Inv.exists_ahead` : a waiter has a lock ahead of it, its target's holder.

`Sched.Inv.run_grants` assembles them over a whole run: once every lock ahead of `w` has
unlocked, `w` is granted, whatever the other locks did meanwhile. `run_iff_sched` shows that
the code and the scheduler accept the same lists of calls and end in the same abstract
state, and `waiter_granted` transfers the result to the code. No fairness of the thread scheduler is assumed: the hypothesis is that the
locks ahead unlock, which a liveness argument must get from the callers.
-/
import NovaDb.Mgl.Safety

namespace NovaDb.Mgl

open LockMode LockRes

/-- The `MGLock` a call is made on. -/
def Action.core : Action → Nat
  | .lock core _ _ => core
  | .unlock core => core

namespace Sched

variable {σ : Sched}

/-- Lock `x` is ahead of lock `w`: on the same target, and granted, or waiting since an
earlier arrival. -/
def Ahead (σ : Sched) (w x : Nat) : Prop :=
  σ.target x = σ.target w ∧
    (σ.res x = LOCKRES_OK ∨ (σ.res x = LOCKRES_WAIT ∧ σ.arrival x < σ.arrival w))

/-! ## Frames -/

/-- Acquiring sets the target, the mode and the arrival stamp of the acquiring lock only. -/
theorem acquire_frame (σ : Sched) (l : Nat) (t : String) (m : LockMode) :
    (σ.acquire l t m).target = (σ.arrive l t m).target ∧
      (σ.acquire l t m).mode = (σ.arrive l t m).mode ∧
      (σ.acquire l t m).arrival = (σ.arrive l t m).arrival := by
  rw [acquire]; split <;> exact ⟨rfl, rfl, rfl⟩

/-- Releasing changes no target, no mode and no arrival stamp. -/
theorem release_frame (σ : Sched) (l : Nat) :
    (σ.release l).target = σ.target ∧ (σ.release l).mode = σ.mode ∧
      (σ.release l).arrival = σ.arrival := by
  have hp : ∀ σ₁ : Sched, σ₁.target = σ.target → σ₁.mode = σ.mode → σ₁.arrival = σ.arrival →
      ∀ t p, (σ₁.promote t p).target = σ.target ∧ (σ₁.promote t p).mode = σ.mode ∧
        (σ₁.promote t p).arrival = σ.arrival := fun σ₁ h₁ h₂ h₃ t p => by
    obtain ⟨-, hm, ht, ha, -⟩ := promote_frame σ₁ t p
    exact ⟨ht.trans h₁, hm.trans h₂, ha.trans h₃⟩
  rw [release]
  split
  · split
    · exact ⟨rfl, rfl, rfl⟩
    · refine hp _ ?_ ?_ ?_ _ _ <;> rfl
  · refine hp _ ?_ ?_ ?_ _ _ <;> rfl
  · exact ⟨rfl, rfl, rfl⟩

/-- A call on another lock keeps a granted lock granted. -/
theorem Queues.step_res_of_ok (h : σ.Queues) {w : Nat} (hw : σ.res w = LOCKRES_OK)
    {a : Action} (ha : a.core ≠ w) : (σ.step a).res w = LOCKRES_OK := by
  cases a with
  | lock l t m =>
    rcases σ.acquire_res l t m w with e | ⟨e, -⟩
    · exact e.trans hw
    · exact absurd e.symm ha
  | unlock x =>
    rcases h.release_res x w with e | ⟨e, -⟩ | ⟨e, -⟩
    · exact e.trans hw
    · exact absurd e.symm ha
    · rw [hw] at e; cases e

/-! ## What stays ahead of a waiter -/

/-- A waiter always has a lock ahead of it: its target's holder. -/
theorem Inv.exists_ahead (h : σ.Inv) {w : Nat} (hw : σ.res w = LOCKRES_WAIT) :
    ∃ x, σ.Ahead w x := by
  have hp : w ∈ (σ.queue (σ.target w)).pending := (h.pending_iff _ w).mpr ⟨hw, rfl⟩
  obtain ⟨x, hx⟩ := List.exists_mem_of_ne_nil _ (h.holder _ (List.ne_nil_of_mem hp))
  have hx' := (h.running_iff _ x).mp hx
  exact ⟨x, hx'.2, .inl hx'.1⟩

/-- **A lock call puts nothing ahead of a waiter.** A call on the waiter's target finds it
queued, so the caller waits, with a later arrival stamp; a call on another target does not
touch the waiter's queue. -/
theorem Inv.ahead_acquire (h : σ.Inv) {w l : Nat} (hw : σ.res w = LOCKRES_WAIT)
    (hl : σ.res l = LOCKRES_UNINITED) (t : String) (m : LockMode) :
    (σ.acquire l t m).res w = LOCKRES_WAIT ∧
      ∀ x, (σ.acquire l t m).Ahead w x → σ.Ahead w x := by
  have hwl : w ≠ l := by rintro rfl; rw [hw] at hl; cases hl
  obtain ⟨htg, -, harr⟩ := σ.acquire_frame l t m
  have hres : ∀ x, x ≠ l → (σ.acquire l t m).res x = σ.res x := fun x hx =>
    (σ.acquire_res l t m x).resolve_right fun e => hx e.1
  refine ⟨(hres w hwl).trans hw, fun x ⟨hxt, hx⟩ => ?_⟩
  simp only [htg, harr, arrive_target, arrive_arrival, if_neg hwl] at hxt hx
  by_cases hxl : x = l
  · -- the caller arrives last, and waits if it is on the waiter's target
    subst hxl
    rw [if_pos rfl] at hxt hx
    subst hxt
    have hpw : (σ.queue (σ.target w)).pending ≠ [] :=
      List.ne_nil_of_mem ((h.pending_iff _ w).mpr ⟨hw, rfl⟩)
    rw [acquire_eq_wait σ (by simp [hpw])] at hx
    have := h.arrived w (by rw [hw]; decide)
    simp only [setRes_res, if_true] at hx
    rcases hx with hx | ⟨-, hx⟩
    · cases hx
    · omega
  · rw [if_neg hxl] at hxt hx
    rw [hres x hxl] at hx
    exact ⟨hxt, hx⟩

/-- **An unlock call on another lock passes nobody over.** It grants the waiter, or leaves
it waiting with nothing new ahead of it and the released lock no longer ahead. A lock that
the release promotes was waiting since before the waiter, since the queue stays in arrival
order. -/
theorem Inv.ahead_release (h : σ.Inv) {w x : Nat} (hw : σ.res w = LOCKRES_WAIT)
    (hxw : x ≠ w) :
    (σ.release x).res w = LOCKRES_OK ∨ ((σ.release x).res w = LOCKRES_WAIT ∧
      ∀ y, (σ.release x).Ahead w y → σ.Ahead w y ∧ y ≠ x) := by
  obtain ⟨htg, -, harr⟩ := σ.release_frame x
  have h' := h.release x
  rcases h.release_res x w with e | ⟨e, -⟩ | ⟨-, e⟩
  · rw [hw] at e
    refine .inr ⟨e, fun y ⟨hyt, hy⟩ => ?_⟩
    have hyx : y ≠ x := by
      rintro rfl
      rcases hy with hy | ⟨hy, -⟩ <;> rw [h.release_res_self] at hy <;> cases hy
    refine ⟨⟨by rwa [htg] at hyt, ?_⟩, hyx⟩
    rcases h.release_res x y with e' | ⟨e', -⟩ | ⟨e', e''⟩
    · rwa [e', harr] at hy
    · exact absurd e' hyx
    · -- promoted by this release: granted ahead of the waiter, so it arrived earlier
      have hlt := h'.running_before _ y ((h'.running_iff _ y).mpr ⟨e'', hyt⟩) w
        ((h'.pending_iff _ w).mpr ⟨e, rfl⟩)
      rw [harr] at hlt
      exact .inr ⟨e', hlt⟩
  · exact absurd e.symm hxw
  · exact .inl e

/-! ## Runs -/

/-- **A waiter is granted once those ahead of it unlock.** From a state with the invariant,
a run of calls on other locks that unlocks every lock ahead of `w` leaves `w` granted: locks
that arrive meanwhile, on its target or any other, never get ahead of it. -/
theorem Inv.run_grants : ∀ {σ σ' : Sched} {as : List Action} {w : Nat}, σ.Inv →
    (∀ a ∈ as, a.core ≠ w) →
    (σ.res w = LOCKRES_OK ∨ (σ.res w = LOCKRES_WAIT ∧ ∀ x, σ.Ahead w x → .unlock x ∈ as)) →
    σ.run as = some σ' → σ'.res w = LOCKRES_OK
  | σ, _, [], w, h, _, hw, hr => by
    cases hr
    rcases hw with hw | ⟨hw, hx⟩
    · exact hw
    · obtain ⟨x, hx'⟩ := h.exists_ahead hw
      cases hx x hx'
  | σ, _, .lock l t m :: rest, w, h, hc, hw, hr => by
    rw [Sched.run] at hr
    split at hr
    · rename_i hl
      refine Inv.run_grants (h.acquire hl t m) (fun a ha => hc a (.tail _ ha)) ?_ hr
      rcases hw with hw | ⟨hw, hx⟩
      · exact .inl (h.step_res_of_ok hw (hc _ (.head _)))
      · obtain ⟨hw', hx'⟩ := h.ahead_acquire hw hl t m
        exact .inr ⟨hw', fun x hx'' => by simpa using hx x (hx' x hx'')⟩
    · cases hr
  | σ, _, .unlock x :: rest, w, h, hc, hw, hr => by
    rw [Sched.run] at hr
    refine Inv.run_grants (h.release x) (fun a ha => hc a (.tail _ ha)) ?_ hr
    rcases hw with hw | ⟨hw, hy⟩
    · exact .inl (h.step_res_of_ok hw (hc _ (.head _)))
    · rcases h.ahead_release hw (hc _ (.head _)) with e | ⟨e, hy'⟩
      · exact .inl e
      · refine .inr ⟨e, fun y hy'' => ?_⟩
        obtain ⟨ha, hne⟩ := hy' y hy''
        exact (List.mem_cons.mp (hy y ha)).resolve_left fun e => hne (Action.unlock.inj e)

end Sched

section Progress

variable {SHARD_NUM : Nat} {strHash : String → Nat}

/-- A run goes on from the state its first call reaches. -/
theorem run_cons_of_step {s s₁ : MglState} {a : Action} (rest : List Action)
    (h : step SHARD_NUM strHash s a = .ok s₁) :
    run SHARD_NUM strHash s (a :: rest) = run SHARD_NUM strHash s₁ rest := by
  rw [run, h]; rfl

/-- A run of the code from a state with `RepInv` is a run of the abstract scheduler, and
ends in the state it ends in. -/
theorem run_sched : ∀ {s s' : MglState} {as : List Action}, RepInv SHARD_NUM strHash s →
    run SHARD_NUM strHash s as = .ok s' →
      (s.sched SHARD_NUM strHash).run as = some (s'.sched SHARD_NUM strHash)
  | _, _, [], _, h => by cases h; rfl
  | s, _, a :: rest, hR, h => by
    cases hs : step SHARD_NUM strHash s a with
    | error e => rw [run, hs] at h; cases h
    | ok s₁ =>
      rw [run, hs] at h
      obtain ⟨hR₁, hσ₁, hfree⟩ := step_spec hR hs
      have ih := run_sched hR₁ h
      rw [hσ₁] at ih
      cases a with
      | lock l t m =>
        rw [Sched.run, if_pos (show (s.sched SHARD_NUM strHash).res l = _ from hfree l t m rfl)]
        exact ih
      | unlock l => exact ih

/-- **The code runs as the scheduler does.** From a reachable state, a list of calls passes
every step of the code exactly when the abstract run accepts it, that is when each lock call
finds its `MGLock` holding nothing; both runs then end in the same abstract state. -/
theorem run_iff_sched {s : MglState} (h : Reachable SHARD_NUM strHash s) (as : List Action)
    (σ' : Sched) :
    (∃ s', run SHARD_NUM strHash s as = .ok s' ∧ s'.sched SHARD_NUM strHash = σ') ↔
      (s.sched SHARD_NUM strHash).run as = some σ' := by
  have hR := h.repInv_sched.1
  exact ⟨fun ⟨s', hs', e⟩ => e ▸ run_sched hR hs',
    fun h' => (run_refines hR h').imp fun _ h => ⟨h.1, h.2.2⟩⟩

/-- From the start, an `X` lock call on `"t"` passes and is granted as the scheduler grants
it. -/
theorem run_iff_sched_exclusive :
    ∃ s', run 4 String.length MglState.init [.lock 0 "t" LOCK_X] = .ok s' ∧
      s'.sched 4 String.length = Sched.init.acquire 0 "t" LOCK_X :=
  (run_iff_sched .init _ _).mpr (by rw [sched_init]; rfl)

/-- **No starvation.** In a reachable state, a waiting `MGLock` `w` is granted by every run of
calls on other `MGLock`s that passes and unlocks each `MGLock` ahead of `w`: on its target,
and granted, or waiting since an earlier lock call. Lock calls made meanwhile never pass
it. -/
theorem waiter_granted {s s' : MglState} (h : Reachable SHARD_NUM strHash s) {w : Nat}
    {as : List Action} (hw : (s.cores w).res = LOCKRES_WAIT) (hother : ∀ a ∈ as, a.core ≠ w)
    (hahead : ∀ x, (s.cores x).target = (s.cores w).target →
      (s.cores x).res = LOCKRES_OK ∨
        ((s.cores x).res = LOCKRES_WAIT ∧ s.arrival x < s.arrival w) →
      Action.unlock x ∈ as)
    (hrun : run SHARD_NUM strHash s as = .ok s') : (s'.cores w).res = LOCKRES_OK := by
  obtain ⟨hR, hσ⟩ := h.repInv_sched
  exact hσ.inv.run_grants hother (.inr ⟨hw, fun x hx => hahead x hx.1 hx.2⟩)
    (run_sched hR hrun)

/-- `X` holds `"t"` and `S` waits behind it, while `IS` takes `"u"`; the unlock of `X` and a
later `S` on `"t"` leave the first `S` granted. -/
theorem waiter_granted_after_writer :
    ∃ s s', Reachable 4 String.length s ∧ (s.cores 1).res = LOCKRES_WAIT ∧
      run 4 String.length s [.lock 3 "t" LOCK_S, .unlock 0] = .ok s' ∧
      (s'.cores 1).res = LOCKRES_OK := by
  obtain ⟨s, hs, hR, hP⟩ := exists_reachable_of_run 4 String.length
    [.lock 0 "t" LOCK_X, .lock 1 "t" LOCK_S, .lock 2 "u" LOCK_IS]
    (fun σ => (σ.queue "t").running == [0] && (σ.queue "t").pending == [1] &&
      σ.target 1 == "t" && σ.res 3 == LOCKRES_UNINITED) (by decide)
  simp only [Bool.and_eq_true, beq_iff_eq] at hP
  obtain ⟨⟨⟨hrun, hpen⟩, ht⟩, h3⟩ := hP
  have hw : (s.cores 1).res = LOCKRES_WAIT := ((hR.queues.pending_iff "t" 1).mp (by simp [hpen])).1
  obtain ⟨s₁, hs₁, hR₁, -⟩ := lock_spec hR h3 "t" LOCK_S
  obtain ⟨s', hs', -⟩ := unlock_spec hR₁ 0
  have hr : run 4 String.length s [.lock 3 "t" LOCK_S, .unlock 0] = .ok s' := by
    rw [run_cons_of_step _ hs₁, run_cons_of_step _ hs']; rfl
  refine ⟨s, s', hs, hw, hr, waiter_granted hs hw (by decide) (fun x hxt hx => ?_) hr⟩
  have ht' : (s.cores 1).target = "t" := ht
  rcases hx with hx | ⟨hx, hlt⟩
  · have := (hR.queues.running_iff "t" x).mpr ⟨hx, hxt.trans ht'⟩
    rw [hrun] at this
    simp [List.mem_singleton.mp this]
  · have := (hR.queues.pending_iff "t" x).mpr ⟨hx, hxt.trans ht'⟩
    rw [hpen, List.mem_singleton] at this
    subst this
    exact absurd hlt (lt_irrefl _)

end Progress

end NovaDb.Mgl
