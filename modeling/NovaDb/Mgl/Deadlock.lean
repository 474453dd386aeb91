/-
# Deadlock and the canonical order

The lock manager detects no deadlock: it is prevented by its callers, which take the locks
of one thread in a canonical order of their targets (storeId, then chunkId, then key). A
thread is given by an `owner` map from `MGLock` ids to threads; a lock call blocks its
thread, so a thread waits for at most one lock.

* `waiter_stays_blocked` : a waiter behind a conflicting granted lock stays waiting over
  every run of calls on other locks;
* `exists_deadlock` : two threads that take `X` on `"a"` and `"b"` in opposite orders reach
  a state where each waits for the other, for ever;
* `exists_waiter_granted` : when every thread holds only locks on targets before the one it
  waits for, some waiting lock is held up by no waiting thread, and the code grants it once
  the threads ahead of it unlock. The proof orders waits by their target, then by latest
  arrival (`Sched.Ordered.acc_blocks`), takes a least one, and runs the unlocks through the
  scheduler.
-/
import NovaDb.Mgl.Progress
import Mathlib.Data.String.Basic
import Mathlib.Order.RelClasses
import Mathlib.Data.Finset.Card
import Mathlib.Order.WellFounded

namespace NovaDb.Mgl

open LockMode LockRes

namespace Sched

variable {σ : Sched}

/-! ## A waiter behind a conflicting holder -/

/-- One call on other locks keeps a waiter waiting behind a conflicting granted lock on its
target: a promotion never grants a lock that conflicts with one that stays granted. -/
theorem Inv.step_blocked (h : σ.Inv) {w x : Nat} (hw : σ.res w = LOCKRES_WAIT)
    (hx : σ.res x = LOCKRES_OK) (ht : σ.target x = σ.target w)
    (hc : conflicts (σ.mode x) (σ.mode w) = true) {a : Action} (hwa : a.core ≠ w)
    (hxa : a.core ≠ x) :
    (σ.step a).res w = LOCKRES_WAIT ∧ (σ.step a).res x = LOCKRES_OK ∧
      (σ.step a).target x = (σ.step a).target w ∧
      conflicts ((σ.step a).mode x) ((σ.step a).mode w) = true := by
  have hx' := h.step_res_of_ok hx hxa
  cases a with
  | lock l t m =>
    obtain ⟨htg, hmd, -⟩ := σ.acquire_frame l t m
    have hwl : w ≠ l := Ne.symm hwa
    have hxl : x ≠ l := Ne.symm hxa
    refine ⟨((σ.acquire_res l t m w).resolve_right fun e => hwl e.1).trans hw, hx', ?_, ?_⟩
    · simp only [step, htg, arrive_target, if_neg hwl, if_neg hxl, ht]
    · simp only [step, hmd, arrive_mode, if_neg hwl, if_neg hxl, hc]
  | unlock y =>
    obtain ⟨htg, hmd, -⟩ := σ.release_frame y
    refine ⟨?_, hx', by simp only [step, htg, ht], by simp only [step, hmd, hc]⟩
    rcases h.release_res y w with e | ⟨e, -⟩ | ⟨-, e⟩
    · exact e.trans hw
    · exact absurd e.symm hwa
    · -- granted next to `x`, whose mode conflicts: mutual exclusion fails
      have hxw : x ≠ w := by rintro rfl; rw [hx] at hw; cases hw
      have := (h.release y).conflicts_eq_false hxw hx' e (by rw [htg]; exact ht)
      rw [hmd, hc] at this
      cases this

/-- **A blocked waiter stays blocked.** From a state with the invariant, a waiter behind a
conflicting granted lock on its target stays waiting, and that lock stays granted, over every
run of calls on other locks. -/
theorem Inv.run_blocked : ∀ {σ σ' : Sched} {as : List Action} {w x : Nat}, σ.Inv →
    σ.res w = LOCKRES_WAIT → σ.res x = LOCKRES_OK → σ.target x = σ.target w →
    conflicts (σ.mode x) (σ.mode w) = true → (∀ a ∈ as, a.core ≠ w ∧ a.core ≠ x) →
    σ.run as = some σ' → σ'.res w = LOCKRES_WAIT ∧ σ'.res x = LOCKRES_OK
  | σ, _, [], _, _, _, hw, hx, _, _, _, hr => by cases hr; exact ⟨hw, hx⟩
  | σ, _, a :: rest, _, _, h, hw, hx, ht, hc, ha, hr => by
    obtain ⟨hw', hx', ht', hc'⟩ := h.step_blocked hw hx ht hc (ha a (.head _)).1 (ha a (.head _)).2
    have hrest : ∀ b ∈ rest, b.core ≠ _ ∧ b.core ≠ _ := fun b hb => ha b (.tail _ hb)
    cases a with
    | lock l t m =>
      rw [Sched.run] at hr
      split at hr
      · exact Inv.run_blocked (h.acquire ‹_› t m) hw' hx' ht' hc' hrest hr
      · cases hr
    | unlock y => exact Inv.run_blocked (h.release y) hw' hx' ht' hc' hrest hr

/-! ## Waits that hold each other up -/

/-- Each thread takes its locks in the order `prec` of their targets, one call at a time:
besides a waiting lock, its thread holds only granted locks, on targets before it. -/
def Ordered (σ : Sched) (owner : Nat → Nat) (prec : String → String → Prop) : Prop :=
  ∀ w y, σ.res w = LOCKRES_WAIT → y ≠ w → owner y = owner w → σ.res y ≠ LOCKRES_UNINITED →
    σ.res y = LOCKRES_OK ∧ prec (σ.target y) (σ.target w)

/-- Waiting lock `w'` holds up waiting lock `w`: a lock ahead of `w` belongs to the thread of
`w'`, which cannot release it while it waits. -/
def Blocks (σ : Sched) (owner : Nat → Nat) (w' w : Nat) : Prop :=
  σ.res w = LOCKRES_WAIT ∧ σ.res w' = LOCKRES_WAIT ∧ ∃ x, σ.Ahead w x ∧ owner x = owner w'

/-- The order of waits under the canonical order: a later target, or the same target and an
earlier arrival. -/
def KeyLt (prec : String → String → Prop) (σ : Sched) (w w' : Nat) : Prop :=
  prec (σ.target w) (σ.target w') ∨
    (σ.target w = σ.target w' ∧ σ.arrival w' < σ.arrival w)

/-- Under the canonical order, a wait is held up only by a later one. -/
theorem Ordered.keyLt_of_blocks {prec : String → String → Prop} {owner : Nat → Nat} (hO : σ.Ordered owner prec) {w w' : Nat}
    (hb : σ.Blocks owner w' w) : KeyLt prec σ w w' := by
  obtain ⟨hw, hw', x, ⟨hxt, hx⟩, hox⟩ := hb
  by_cases e : x = w'
  · -- the lock ahead is the waiting lock itself: it arrived earlier on the same target
    subst e
    rcases hx with hx | ⟨-, hlt⟩
    · rw [hx] at hw'; cases hw'
    · exact .inr ⟨hxt.symm, hlt⟩
  · -- a granted lock of the waiting thread: its target comes before the one it waits for
    have hxu : σ.res x ≠ LOCKRES_UNINITED := by rcases hx with hx | ⟨hx, -⟩ <;> rw [hx] <;> decide
    exact .inl (hxt ▸ (hO w' x hw' e hox hxu).2)

section Order

variable {prec : String → String → Prop} [IsStrictOrder String prec]

theorem keyLt_irrefl (w : Nat) : ¬ KeyLt prec σ w w := by
  rintro (h | ⟨-, h⟩)
  · exact irrefl _ h
  · exact lt_irrefl _ h

theorem keyLt_trans {u v w : Nat} (h₁ : KeyLt prec σ u v) (h₂ : KeyLt prec σ v w) :
    KeyLt prec σ u w := by
  rcases h₁ with h₁ | ⟨e₁, h₁⟩ <;> rcases h₂ with h₂ | ⟨e₂, h₂⟩
  · exact .inl (IsTrans.trans _ _ _ h₁ h₂)
  · exact .inl (e₂ ▸ h₁)
  · exact .inl (e₁ ▸ h₂)
  · exact .inr ⟨e₁.trans e₂, h₂.trans h₁⟩

end Order

/-- A reachable state has finitely many locks that hold or wait. -/
theorem Reachable.exists_active (h : σ.Reachable) :
    ∃ L : List Nat, ∀ l, σ.res l ≠ LOCKRES_UNINITED → l ∈ L := by
  induction h with
  | init => exact ⟨[], fun _ hl => absurd rfl hl⟩
  | acquire l t m _ _ ih =>
    obtain ⟨L, hL⟩ := ih
    refine ⟨l :: L, fun l' hl' => ?_⟩
    rcases Sched.acquire_res _ l t m l' with e | ⟨e, -⟩
    · exact .tail _ (hL l' (e ▸ hl'))
    · exact e ▸ .head _
  | release l hr ih =>
    obtain ⟨L, hL⟩ := ih
    refine ⟨L, fun l' hl' => hL l' ?_⟩
    rcases hr.inv.release_res l l' with e | ⟨-, e⟩ | ⟨e, -⟩
    · exact e ▸ hl'
    · exact absurd e hl'
    · rw [e]; decide

/-- **Waits are well founded under the canonical order.** In a state where each thread takes
its locks in the order `prec` and finitely many locks hold or wait, every chain of waiting
locks, each held up by the thread of the next, is finite. The queues play no part here: the
order of the targets does the work. -/
theorem Ordered.acc_blocks {prec : String → String → Prop} [IsStrictOrder String prec]
    {owner : Nat → Nat} (hO : σ.Ordered owner prec)
    (hfin : ∃ L : List Nat, ∀ l, σ.res l ≠ LOCKRES_UNINITED → l ∈ L) (w : Nat) :
    Acc (σ.Blocks owner) w := by
  classical
  obtain ⟨L, hL⟩ := hfin
  -- the waiting locks after a wait, in the order of waits
  let above : Nat → Finset Nat := fun w =>
    L.toFinset.filter fun v => σ.res v = LOCKRES_WAIT ∧ KeyLt prec σ w v
  have hdec : ∀ w' w, σ.Blocks owner w' w → (above w').card < (above w).card := by
    intro w' w hb
    have hlt := hO.keyLt_of_blocks hb
    have hw' : w' ∈ above w := by
      simp only [above, Finset.mem_filter, List.mem_toFinset]
      exact ⟨hL w' (by rw [hb.2.1]; decide), hb.2.1, hlt⟩
    refine Finset.card_lt_card ⟨fun v hv => ?_, fun hsub => ?_⟩
    · simp only [above, Finset.mem_filter] at hv ⊢
      exact ⟨hv.1, hv.2.1, keyLt_trans hlt hv.2.2⟩
    · exact keyLt_irrefl w' (Finset.mem_filter.mp (hsub hw')).2.2
  exact Subrelation.accessible (fun hb => hdec _ _ hb) ((measure fun w => (above w).card).wf.apply w)

/-- Under the canonical order, when some lock waits, one waiting lock is held up by no
waiting thread: every lock ahead of it belongs to a thread that waits for nothing. -/
theorem Ordered.exists_free_waiter {prec : String → String → Prop} [IsStrictOrder String prec]
    {owner : Nat → Nat} (hO : σ.Ordered owner prec)
    (hfin : ∃ L : List Nat, ∀ l, σ.res l ≠ LOCKRES_UNINITED → l ∈ L) {w₀ : Nat}
    (hw₀ : σ.res w₀ = LOCKRES_WAIT) :
    ∃ w, σ.res w = LOCKRES_WAIT ∧ ∀ x v, σ.Ahead w x → σ.res v = LOCKRES_WAIT → owner v ≠ owner x := by
  obtain ⟨w, hw, hmin⟩ := (⟨hO.acc_blocks hfin⟩ : WellFounded (σ.Blocks owner)).has_min
    {w | σ.res w = LOCKRES_WAIT} ⟨w₀, hw₀⟩
  exact ⟨w, hw, fun x v hx hv e => hmin v hv ⟨hw, hv, x, hx, e.symm⟩⟩

/-- The scheduler accepts every run of unlock calls. -/
theorem exists_run_unlocks : ∀ (σ : Sched) (xs : List Nat), ∃ σ', σ.run (xs.map .unlock) = some σ'
  | σ, [] => ⟨σ, rfl⟩
  | σ, x :: xs => exists_run_unlocks (σ.release x) xs

end Sched

section Deadlock

variable {SHARD_NUM : Nat} {strHash : String → Nat}

/-- **A blocked waiter stays blocked.** In a reachable state, an `MGLock` `w` waiting behind a
granted `MGLock` `x` on its target whose mode conflicts with its own stays waiting, and `x`
stays granted, over every run of calls on other `MGLock`s that passes. -/
theorem waiter_stays_blocked {s s' : MglState} (h : Reachable SHARD_NUM strHash s) {w x : Nat}
    {as : List Action} (hw : (s.cores w).res = LOCKRES_WAIT) (hx : (s.cores x).res = LOCKRES_OK)
    (ht : (s.cores x).target = (s.cores w).target)
    (hc : isConflict (1 <<< enum2Int (s.cores x).mode) (s.cores w).mode = true)
    (ha : ∀ a ∈ as, a.core ≠ w ∧ a.core ≠ x) (hr : run SHARD_NUM strHash s as = .ok s') :
    (s'.cores w).res = LOCKRES_WAIT ∧ (s'.cores x).res = LOCKRES_OK :=
  h.repInv_sched.2.inv.run_blocked hw hx ht hc ha (run_sched h.repInv_sched.1 hr)

/-- `S` waits behind `X` on `"t"`; an `IS` call of another `MGLock` leaves it waiting. -/
theorem waiter_stays_blocked_behind_writer :
    ∃ s s', Reachable 4 String.length s ∧ run 4 String.length s [.lock 2 "t" LOCK_IS] = .ok s' ∧
      (s'.cores 1).res = LOCKRES_WAIT ∧ (s'.cores 0).res = LOCKRES_OK := by
  obtain ⟨s, hs, hR, hP⟩ := exists_reachable_of_run 4 String.length
    [.lock 0 "t" LOCK_X, .lock 1 "t" LOCK_S]
    (fun σ => σ.res 0 == LOCKRES_OK && σ.res 1 == LOCKRES_WAIT && σ.res 2 == LOCKRES_UNINITED &&
      σ.target 0 == σ.target 1 && σ.mode 0 == LOCK_X && σ.mode 1 == LOCK_S) (by decide)
  simp only [Bool.and_eq_true, beq_iff_eq] at hP
  obtain ⟨⟨⟨⟨⟨h0, h1⟩, h2⟩, ht⟩, hm0⟩, hm1⟩ := hP
  obtain ⟨s', hs', -⟩ := lock_spec hR h2 "t" LOCK_IS
  have hr : run 4 String.length s [.lock 2 "t" LOCK_IS] = .ok s' := by
    rw [run_cons_of_step _ hs']; rfl
  have hm0' : (s.cores 0).mode = LOCK_X := hm0
  have hm1' : (s.cores 1).mode = LOCK_S := hm1
  exact ⟨s, s', hs, hr, waiter_stays_blocked hs h1 h0 ht (by rw [hm0', hm1']; decide)
    (by simp [Action.core]) hr⟩

/-- **No deadlock under the canonical order.** In every reachable state of the code where each
thread holds only granted locks on targets before the one it waits for, if some `MGLock`
waits then one waiting `MGLock` `w` is held up only by threads that wait for nothing. Every
run of calls on other `MGLock`s that passes and unlocks the `MGLock`s ahead of `w` grants it,
and the run of those unlocks alone passes. -/
theorem exists_waiter_granted {prec : String → String → Prop} [IsStrictOrder String prec]
    {s : MglState} (h : Reachable SHARD_NUM strHash s) (owner : Nat → Nat)
    (hO : (s.sched SHARD_NUM strHash).Ordered owner prec) {w₀ : Nat}
    (hw₀ : (s.cores w₀).res = LOCKRES_WAIT) :
    ∃ w, (s.cores w).res = LOCKRES_WAIT ∧
      (∀ x v, (s.sched SHARD_NUM strHash).Ahead w x → (s.cores v).res = LOCKRES_WAIT →
        owner v ≠ owner x) ∧
      (∀ as s', (∀ a ∈ as, a.core ≠ w) →
        (∀ x, (s.sched SHARD_NUM strHash).Ahead w x → Action.unlock x ∈ as) →
        run SHARD_NUM strHash s as = .ok s' → (s'.cores w).res = LOCKRES_OK) ∧
      ∃ (xs : List Nat) (s' : MglState), (∀ x ∈ xs, (s.sched SHARD_NUM strHash).Ahead w x) ∧
        run SHARD_NUM strHash s (xs.map .unlock) = .ok s' ∧ (s'.cores w).res = LOCKRES_OK := by
  classical
  obtain ⟨hR, hσ⟩ := h.repInv_sched
  obtain ⟨L, hL⟩ := hσ.exists_active
  obtain ⟨w, hw, hfree⟩ := hO.exists_free_waiter ⟨L, hL⟩ hw₀
  have hgrant : ∀ as s', (∀ a ∈ as, a.core ≠ w) →
      (∀ x, (s.sched SHARD_NUM strHash).Ahead w x → Action.unlock x ∈ as) →
      run SHARD_NUM strHash s as = .ok s' → (s'.cores w).res = LOCKRES_OK :=
    fun _ _ ho ha hr => hσ.inv.run_grants ho (.inr ⟨hw, ha⟩) (run_sched hR hr)
  -- the locks ahead of `w`: active, and other than `w`, which waits
  have hne : ∀ x, (s.sched SHARD_NUM strHash).Ahead w x → x ≠ w := by
    rintro x ⟨-, e | ⟨-, e⟩⟩ rfl
    · exact absurd (e.symm.trans hw) (by decide)
    · exact lt_irrefl _ e
  have hmem : ∀ x, (s.sched SHARD_NUM strHash).Ahead w x → x ∈ L := fun x hx =>
    hL x (by rcases hx.2 with e | ⟨e, -⟩ <;> rw [e] <;> decide)
  let xs := L.filter fun x => (s.sched SHARD_NUM strHash).Ahead w x
  obtain ⟨σ', hσ'⟩ := Sched.exists_run_unlocks (s.sched SHARD_NUM strHash) xs
  obtain ⟨s', hr, -, -⟩ := run_refines hR hσ'
  refine ⟨w, hw, hfree, hgrant, xs, s', fun x hx => of_decide_eq_true (List.mem_filter.mp hx).2,
    hr, hgrant _ _ ?_ ?_ hr⟩
  · intro a ha
    obtain ⟨x, hx, rfl⟩ := List.mem_map.mp ha
    exact hne x (of_decide_eq_true (List.mem_filter.mp hx).2)
  · exact fun x hx => List.mem_map.mpr ⟨x, List.mem_filter.mpr ⟨hmem x hx, decide_eq_true hx⟩, rfl⟩

/-- Thread `0` holds `X` on `"a"` (`MGLock` `0`) and waits for `X` on `"b"` (`MGLock` `2`),
which thread `1` holds (`MGLock` `1`): the threads keep the order of their targets, and a
waiter is granted once the threads ahead of it unlock. -/
theorem exists_waiter_granted_two_threads :
    ∃ s, Reachable 4 String.length s ∧
      (s.sched 4 String.length).Ordered (fun y => if y = 2 then 0 else y) (· < ·) ∧
      (s.cores 2).res = LOCKRES_WAIT ∧
      ∃ w, (s.cores w).res = LOCKRES_WAIT ∧
        (∀ x v, (s.sched 4 String.length).Ahead w x → (s.cores v).res = LOCKRES_WAIT →
          (fun y => if y = 2 then 0 else y) v ≠ (fun y => if y = 2 then 0 else y) x) ∧
        (∀ as s', (∀ a ∈ as, a.core ≠ w) →
          (∀ x, (s.sched 4 String.length).Ahead w x → Action.unlock x ∈ as) →
          run 4 String.length s as = .ok s' → (s'.cores w).res = LOCKRES_OK) ∧
        ∃ (xs : List Nat) (s' : MglState), (∀ x ∈ xs, (s.sched 4 String.length).Ahead w x) ∧
          run 4 String.length s (xs.map .unlock) = .ok s' ∧ (s'.cores w).res = LOCKRES_OK := by
  obtain ⟨s, hs, -, hP⟩ := exists_reachable_of_run 4 String.length
    [.lock 0 "a" LOCK_X, .lock 1 "b" LOCK_X, .lock 2 "b" LOCK_X]
    (fun σ => σ.res 0 == LOCKRES_OK && σ.res 2 == LOCKRES_WAIT && σ.target 0 == "a" &&
      σ.target 2 == "b") (by decide)
  simp only [Bool.and_eq_true, beq_iff_eq] at hP
  obtain ⟨⟨⟨h0, h2⟩, ht0⟩, ht2⟩ := hP
  -- thread `0` is `MGLock`s `0` and `2`; every other `MGLock` is a thread of its own
  have hO : (s.sched 4 String.length).Ordered (fun y => if y = 2 then 0 else y) (· < ·) := by
    intro w y hw hyw hown _
    by_cases e : w = 2
    · subst e
      obtain rfl : y = 0 := by by_cases hy : y = 2 <;> simp_all
      exact ⟨h0, by rw [ht0, ht2]; show "a" < "b"; rw [String.lt_iff_toList_lt]; decide⟩
    · by_cases hy : y = 2
      · obtain rfl : w = 0 := by simp_all
        rw [h0] at hw; cases hw
      · simp only [if_neg e, if_neg hy] at hown
        exact absurd hown hyw
  exact ⟨s, hs, hO, h2, exists_waiter_granted hs _ hO h2⟩

/-- **A deadlock without the canonical order.** For every shard count and hash: thread `0`
(`MGLock`s `0` and `2`) takes `X` on `"a"` and asks for `X` on `"b"`, while thread `1`
(`MGLock`s `1` and `3`) takes `X` on `"b"` and asks for `X` on `"a"`. Each wait is held up by
the other, and no run of calls on other `MGLock`s grants either. -/
theorem exists_deadlock (SHARD_NUM : Nat) (strHash : String → Nat) :
    ∃ s, Reachable SHARD_NUM strHash s ∧
      (s.sched SHARD_NUM strHash).Blocks (· % 2) 3 2 ∧
      (s.sched SHARD_NUM strHash).Blocks (· % 2) 2 3 ∧
      ∀ as s', (∀ a ∈ as, a.core ∉ [0, 1, 2, 3]) → run SHARD_NUM strHash s as = .ok s' →
        (s'.cores 2).res = LOCKRES_WAIT ∧ (s'.cores 3).res = LOCKRES_WAIT := by
  obtain ⟨s, hs, hR, hP⟩ := exists_reachable_of_run SHARD_NUM strHash
    [.lock 0 "a" LOCK_X, .lock 1 "b" LOCK_X, .lock 2 "b" LOCK_X, .lock 3 "a" LOCK_X]
    (fun σ => σ.res 0 == LOCKRES_OK && σ.res 1 == LOCKRES_OK && σ.res 2 == LOCKRES_WAIT &&
      σ.res 3 == LOCKRES_WAIT && σ.target 0 == "a" && σ.target 1 == "b" &&
      σ.target 2 == "b" && σ.target 3 == "a" && σ.mode 0 == LOCK_X && σ.mode 1 == LOCK_X &&
      σ.mode 2 == LOCK_X && σ.mode 3 == LOCK_X) (by decide)
  simp only [Bool.and_eq_true, beq_iff_eq] at hP
  obtain ⟨⟨⟨⟨⟨⟨⟨⟨⟨⟨⟨h0, h1⟩, h2⟩, h3⟩, ht0⟩, ht1⟩, ht2⟩, ht3⟩, hm0⟩, hm1⟩, hm2⟩, hm3⟩ := hP
  have hXX : conflicts LOCK_X LOCK_X = true := by decide
  refine ⟨s, hs, ⟨h2, h3, 1, ⟨ht1.trans ht2.symm, .inl h1⟩, rfl⟩,
    ⟨h3, h2, 0, ⟨ht0.trans ht3.symm, .inl h0⟩, rfl⟩, fun as s' ha hr => ?_⟩
  have hI := hs.repInv_sched.2.inv
  have hr' := run_sched hR hr
  have hne : ∀ a ∈ as, ∀ l ∈ [0, 1, 2, 3], a.core ≠ l := fun a h l hl e => ha a h (e ▸ hl)
  exact ⟨(hI.run_blocked h2 h1 (ht1.trans ht2.symm) (by rw [hm1, hm2]; exact hXX)
      (fun a h => ⟨hne a h 2 (by simp), hne a h 1 (by simp)⟩) hr').1,
    (hI.run_blocked h3 h0 (ht0.trans ht3.symm) (by rw [hm0, hm3]; exact hXX)
      (fun a h => ⟨hne a h 3 (by simp), hne a h 0 (by simp)⟩) hr').1⟩

end Deadlock

end NovaDb.Mgl
