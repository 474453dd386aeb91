/-
# The bookkeeping of a `LockSchedCtx`

Each side of a `LockSchedCtx`, granted or waiting, keeps a list of nodes, a count per mode
and a `uint16_t` mask of the modes whose count is non-zero. `SideOk` says that the three
agree and that every node is the `_resIter` of its own `MGLock`; `CtxOk` says it of both
sides. The lemmas below say what the calls of `mgl_mgr.cpp` do to a side that is `SideOk`:

* `incrRef_ok`, `decRef_ok` : the counting calls pass their `INVARIANT_D` and keep the
  mask in step with the counts;
* `MaskOf.isConflict_eq_true` : `isConflict(modes, mode)` on such a mask asks whether some
  counted mode conflicts with `mode`;
* `SideOk.push`, `SideOk.remove`, `SideOk.eraseIter`, `SideOk.frame` : appending a fresh
  node, removing a node, finding the node of `_resIter`, and changing `MGLock`s outside
  the list.
-/
import NovaDb.Mgl.MglMgr
import Mathlib.Data.List.Nodup

namespace NovaDb.Mgl

open LockMode LockRes

/-! ## Masks -/

/-- Distinct modes have distinct bits. -/
theorem enum2Int_inj {a b : LockMode} (h : enum2Int a = enum2Int b) : a = b := by
  cases a <;> cases b <;> first | rfl | simp [enum2Int] at h

/-- Every bit of a mode fits in the `uint16_t` mask. -/
theorem enum2Int_lt (m : LockMode) : enum2Int m < 16 := by cases m <;> decide

/-- Bit `k` of `modes` is set iff `k` is the bit of a mode with a non-zero count: how
`_runningModes` mirrors `_runningRefCnt`. -/
def MaskOf (modes : Nat) (cnt : LockMode → Nat) : Prop :=
  ∀ k, modes.testBit k = true ↔ ∃ m, enum2Int m = k ∧ cnt m ≠ 0

variable {modes : Nat} {cnt : LockMode → Nat}

/-- The mask of `LockSchedCtx()`: no count, no bit. -/
theorem maskOf_zero : MaskOf 0 fun _ => 0 := fun k => by simp

/-- The bit of a mode is set iff its count is non-zero. -/
theorem MaskOf.testBit (h : MaskOf modes cnt) (m : LockMode) :
    modes.testBit (enum2Int m) = true ↔ cnt m ≠ 0 :=
  (h _).trans ⟨fun ⟨_, e, hm⟩ => enum2Int_inj e ▸ hm, fun hm => ⟨m, rfl, hm⟩⟩

/-- The mask is `0` iff every count is. -/
theorem MaskOf.eq_zero_iff (h : MaskOf modes cnt) : modes = 0 ↔ ∀ m, cnt m = 0 := by
  constructor
  · rintro rfl m
    by_contra hm
    simpa using (h.testBit m).mpr hm
  · intro h0
    refine Nat.eq_of_testBit_eq fun k => ?_
    rw [Nat.zero_testBit, Bool.eq_false_iff]
    intro hk
    obtain ⟨m, -, hm⟩ := (h k).mp hk
    exact hm (h0 m)

/-- Changing the count of one mode leaves the bits of the others. -/
theorem exists_update_ne_zero {m : LockMode} {v k : Nat} (hk : k ≠ enum2Int m) :
    (∃ m', enum2Int m' = k ∧ Function.update cnt m v m' ≠ 0) ↔
      ∃ m', enum2Int m' = k ∧ cnt m' ≠ 0 :=
  exists_congr fun _ => and_congr_right fun e => by
    rw [Function.update_noteq (by rintro rfl; exact hk e.symm)]

/-- The bit of a mode follows its new count. -/
theorem exists_update_self {m : LockMode} {v : Nat} :
    (∃ m', enum2Int m' = enum2Int m ∧ Function.update cnt m v m' ≠ 0) ↔ v ≠ 0 :=
  ⟨fun ⟨_, e, h⟩ => by rwa [enum2Int_inj e, Function.update_same] at h,
    fun h => ⟨m, rfl, by rwa [Function.update_same]⟩⟩

/-- Setting the bit of `m` when its count becomes non-zero. -/
theorem MaskOf.set (h : MaskOf modes cnt) (m : LockMode) {v : Nat} (hv : v ≠ 0) :
    MaskOf (modes ||| 1 <<< enum2Int m) (Function.update cnt m v) := fun k => by
  rw [Nat.testBit_or, Nat.one_shiftLeft, Nat.testBit_two_pow]
  by_cases hk : k = enum2Int m
  · subst hk; simp [exists_update_self, hv]
  · rw [exists_update_ne_zero hk, ← h k]; simp [Ne.symm hk]

/-- Clearing the bit of `m` with `static_cast<uint16_t>(~(1 << modeInt))` when its count
drops to zero. -/
theorem MaskOf.clear (h : MaskOf modes cnt) (m : LockMode) :
    MaskOf (modes &&& (0xFFFF ^^^ 1 <<< enum2Int m)) (Function.update cnt m 0) := fun k => by
  rw [Nat.testBit_and, Nat.testBit_xor, Nat.one_shiftLeft, Nat.testBit_two_pow,
    show (0xFFFF : Nat) = 2 ^ 16 - 1 from rfl, Nat.testBit_two_pow_sub_one]
  by_cases hk : k = enum2Int m
  · subst hk; simp [exists_update_self, enum2Int_lt]
  · rw [exists_update_ne_zero hk, ← h k]
    simp only [Ne.symm hk, decide_False, Bool.xor_false, Bool.and_eq_true, decide_eq_true_eq,
      and_iff_left_iff_imp]
    intro hb
    obtain ⟨m', rfl, -⟩ := (h k).mp hb
    exact enum2Int_lt m'

/-- A count that stays on the same side of zero leaves the mask alone. -/
theorem MaskOf.update (h : MaskOf modes cnt) (m : LockMode) {v : Nat} (hv : v = 0 ↔ cnt m = 0) :
    MaskOf modes (Function.update cnt m v) := fun k => by
  by_cases hk : k = enum2Int m
  · subst hk; rw [exists_update_self, h.testBit m, ne_eq, ne_eq, hv]
  · rw [exists_update_ne_zero hk, h k]

/-- **`incrRef` passes its check.** -/
theorem incrRef_ok (h : MaskOf modes cnt) (m : LockMode) (name : String) :
    ∃ modes', incrRef cnt modes m name = .ok (Function.update cnt m (cnt m + 1), modes') ∧
      MaskOf modes' (Function.update cnt m (cnt m + 1)) := by
  by_cases h0 : cnt m = 0
  · have hbit : modes &&& 1 <<< enum2Int m = 0 := Nat.eq_of_testBit_eq fun k => by
      rw [Nat.testBit_and, Nat.one_shiftLeft, Nat.testBit_two_pow, Nat.zero_testBit]
      by_cases hk : enum2Int m = k
      · subst hk; simpa [h0] using h.testBit m
      · simp [hk]
    exact ⟨_, by simp [incrRef, h0, hbit], h.set m (by omega)⟩
  · exact ⟨modes, by simp [incrRef, h0], h.update m (by omega)⟩

/-- **`decRef` passes its checks** on a mode with a non-zero count. -/
theorem decRef_ok (h : MaskOf modes cnt) {m : LockMode} (hm : cnt m ≠ 0) (n₁ n₂ : String) :
    ∃ modes', decRef cnt modes m n₁ n₂ = .ok (Function.update cnt m (cnt m - 1), modes') ∧
      MaskOf modes' (Function.update cnt m (cnt m - 1)) := by
  by_cases h1 : cnt m - 1 = 0
  · have hbit : modes &&& 1 <<< enum2Int m ≠ 0 := (and_ne_zero_iff _ _).mpr
      ⟨enum2Int m, (h.testBit m).mpr hm, by simp [Nat.one_shiftLeft, Nat.testBit_two_pow]⟩
    refine ⟨modes &&& (0xFFFF ^^^ 1 <<< enum2Int m), by simp [decRef, hm, h1, hbit], ?_⟩
    rw [h1]
    exact h.clear m
  · exact ⟨modes, by simp [decRef, hm, h1], h.update m (by omega)⟩

/-- **Reading `isConflict` on a mask.** It holds iff some mode with a non-zero count
conflicts with `mode`. -/
theorem MaskOf.isConflict_eq_true (h : MaskOf modes cnt) (mode : LockMode) :
    isConflict modes mode = true ↔ ∃ m, cnt m ≠ 0 ∧ isConflict (1 <<< enum2Int m) mode = true := by
  rw [isConflict_iff]
  constructor
  · rintro ⟨k, hk, hc⟩
    obtain ⟨m, rfl, hm⟩ := (h k).mp hk
    exact ⟨m, hm, by rwa [isConflict_single]⟩
  · rintro ⟨m, hm, hc⟩
    exact ⟨_, (h.testBit m).mpr hm, by rwa [isConflict_single] at hc⟩

/-! ## Counts of a list -/

/-- The number of nodes of `L` whose `MGLock` has mode `m`. -/
def tally (s : MglState) (L : List ListNode) (m : LockMode) : Nat :=
  L.countP fun n => decide ((s.cores n.core).mode = m)

@[simp] theorem tally_nil (s : MglState) : tally s [] = fun _ => 0 := rfl

/-- Appending a node adds one to the count of its mode. -/
theorem tally_append_singleton (s : MglState) (L : List ListNode) (n : ListNode) :
    tally s (L ++ [n]) =
      Function.update (tally s L) (s.cores n.core).mode (tally s L (s.cores n.core).mode + 1) := by
  funext m
  by_cases e : m = (s.cores n.core).mode
  · subst e; simp [tally, List.countP_append]
  · simp [tally, List.countP_append, e, Ne.symm e]

/-- Removing a node takes one from the count of its mode. -/
theorem tally_remove (s : MglState) (L₁ L₂ : List ListNode) (n : ListNode) :
    tally s (L₁ ++ L₂) = Function.update (tally s (L₁ ++ n :: L₂)) (s.cores n.core).mode
      (tally s (L₁ ++ n :: L₂) (s.cores n.core).mode - 1) := by
  funext m
  by_cases e : m = (s.cores n.core).mode
  · subst e; simp [tally, List.countP_append, List.countP_cons]
  · simp [tally, List.countP_append, List.countP_cons, e, Ne.symm e]

/-- A mode has a non-zero count iff some node has it. -/
theorem tally_ne_zero_iff {s : MglState} {L : List ListNode} {m : LockMode} :
    tally s L m ≠ 0 ↔ ∃ n ∈ L, (s.cores n.core).mode = m := by
  simp [tally, ← Nat.pos_iff_ne_zero, List.countP_pos_iff]

/-- Every count is `0` iff the list is empty. -/
theorem tally_eq_zero_iff {s : MglState} {L : List ListNode} :
    (∀ m, tally s L m = 0) ↔ L = [] := by
  constructor
  · intro h
    cases L with
    | nil => rfl
    | cons n _ => exact absurd (h (s.cores n.core).mode) (tally_ne_zero_iff.mpr ⟨n, .head _, rfl⟩)
  · rintro rfl m; rfl

/-- The counts depend only on the modes of the nodes' `MGLock`s. -/
theorem tally_congr {s s' : MglState} {L : List ListNode}
    (h : ∀ n ∈ L, (s'.cores n.core).mode = (s.cores n.core).mode) : tally s' L = tally s L := by
  funext m
  exact List.countP_congr fun n hn => by simp [h n hn]

/-! ## One side of a context -/

/-- One side of a `LockSchedCtx`: the list `L` with its counts `cnt` and mask `modes`. The
nodes have distinct addresses below `nextAddr`, each the `_resIter` of its own `MGLock`;
the counts are those of the list and the mask that of the counts. -/
structure SideOk (s : MglState) (L : List ListNode) (cnt : LockMode → Nat) (modes : Nat) :
    Prop where
  addr_nodup : (L.map (·.addr)).Nodup
  iter : ∀ n ∈ L, (s.cores n.core).resIter = some n.addr ∧ n.addr < s.nextAddr
  cnt_eq : cnt = tally s L
  mask : MaskOf modes cnt

/-- Both sides of a context. -/
structure CtxOk (s : MglState) (c : LockSchedCtx) : Prop where
  running : SideOk s c.runningList c.runningRefCnt c.runningModes
  pending : SideOk s c.pendingList c.pendingRefCnt c.pendingModes

variable {s s' : MglState} {L : List ListNode}

/-- An empty side with zero counts and mask is represented. -/
theorem sideOk_nil (s : MglState) : SideOk s [] (fun _ => 0) 0 :=
  ⟨List.nodup_nil, by simp, rfl, maskOf_zero⟩

/-- `LockSchedCtx()` is represented. -/
theorem ctxOk_init (s : MglState) : CtxOk s LockSchedCtx.init :=
  ⟨sideOk_nil s, sideOk_nil s⟩

/-- A side stays represented when the `MGLock`s of its nodes do not change. -/
theorem SideOk.frame (h : SideOk s L cnt modes) (hfr : ∀ n ∈ L, s'.cores n.core = s.cores n.core)
    (hna : s.nextAddr ≤ s'.nextAddr) : SideOk s' L cnt modes where
  addr_nodup := h.addr_nodup
  iter n hn := by
    rw [hfr n hn]
    exact ⟨(h.iter n hn).1, by have := (h.iter n hn).2; omega⟩
  cnt_eq := by rw [h.cnt_eq, tally_congr fun n hn => by rw [hfr n hn]]
  mask := h.mask

/-- A context stays represented when the `MGLock`s of its nodes do not change. -/
theorem CtxOk.frame {c : LockSchedCtx} (h : CtxOk s c)
    (hfr : ∀ n ∈ c.runningList ++ c.pendingList, s'.cores n.core = s.cores n.core)
    (hna : s.nextAddr ≤ s'.nextAddr) : CtxOk s' c :=
  ⟨h.running.frame (fun n hn => hfr n (List.mem_append_left _ hn)) hna,
    h.pending.frame (fun n hn => hfr n (List.mem_append_right _ hn)) hna⟩

/-- On a represented side, `isConflict(modes, mode)` asks whether the mode of some node
conflicts with `mode`. -/
theorem SideOk.isConflict_eq (h : SideOk s L cnt modes) (mode : LockMode) :
    isConflict modes mode =
      L.any fun n => isConflict (1 <<< enum2Int (s.cores n.core).mode) mode := by
  rw [Bool.eq_iff_iff, h.mask.isConflict_eq_true, h.cnt_eq, List.any_eq_true]
  constructor
  · rintro ⟨m, hm, hc⟩
    obtain ⟨n, hn, rfl⟩ := tally_ne_zero_iff.mp hm
    exact ⟨n, hn, hc⟩
  · rintro ⟨n, hn, hc⟩
    exact ⟨_, tally_ne_zero_iff.mpr ⟨n, hn, rfl⟩, hc⟩

/-- On a represented side the mask is `0` iff the list is empty. -/
theorem SideOk.modes_eq_zero_iff (h : SideOk s L cnt modes) : modes = 0 ↔ L = [] := by
  rw [h.mask.eq_zero_iff, h.cnt_eq, tally_eq_zero_iff]

/-- **Appending a fresh node** `list.insert(list.end(), core)` and counting its mode. -/
theorem SideOk.push (h : SideOk s L cnt modes) (name : String) {l : Nat}
    (hfr : ∀ n ∈ L, s'.cores n.core = s.cores n.core) (hna : s.nextAddr < s'.nextAddr)
    (hiter : (s'.cores l).resIter = some s.nextAddr) :
    ∃ modes', incrRef cnt modes (s'.cores l).mode name =
        .ok (tally s' (L ++ [⟨s.nextAddr, l⟩]), modes') ∧
      SideOk s' (L ++ [⟨s.nextAddr, l⟩]) (tally s' (L ++ [⟨s.nextAddr, l⟩])) modes' := by
  have h' := h.frame hfr hna.le
  obtain ⟨modes', hinc, hmask⟩ := incrRef_ok h'.mask (s'.cores l).mode name
  have htally : tally s' (L ++ [⟨s.nextAddr, l⟩]) =
      Function.update cnt (s'.cores l).mode (cnt (s'.cores l).mode + 1) := by
    rw [tally_append_singleton, ← h'.cnt_eq]
  rw [htally]
  refine ⟨modes', hinc, ?_, ?_, htally.symm, hmask⟩
  · rw [List.map_append, List.nodup_append]
    refine ⟨h.addr_nodup, List.nodup_singleton _, ?_⟩
    simp only [List.map_cons, List.map_nil, List.disjoint_singleton, List.mem_map, not_exists,
      not_and]
    intro n hn e
    have := (h.iter n hn).2
    omega
  · simp only [List.mem_append, List.mem_singleton]
    rintro n (hn | rfl)
    · exact h'.iter n hn
    · exact ⟨hiter, hna⟩

/-- **Removing a node** and uncounting its mode. -/
theorem SideOk.remove {L₁ L₂ : List ListNode} {n : ListNode}
    (h : SideOk s (L₁ ++ n :: L₂) cnt modes) (a b : String) :
    ∃ modes', decRef cnt modes (s.cores n.core).mode a b = .ok (tally s (L₁ ++ L₂), modes') ∧
      SideOk s (L₁ ++ L₂) (tally s (L₁ ++ L₂)) modes' := by
  obtain ⟨hnd, hit, rfl, hm⟩ := h
  have hpos : tally s (L₁ ++ n :: L₂) (s.cores n.core).mode ≠ 0 :=
    tally_ne_zero_iff.mpr ⟨n, by simp, rfl⟩
  obtain ⟨modes', hdec, hmask⟩ := decRef_ok hm hpos a b
  rw [← tally_remove] at hdec hmask
  have hsub : (L₁ ++ L₂).Sublist (L₁ ++ n :: L₂) :=
    (List.Sublist.refl L₁).append (List.sublist_cons_self n L₂)
  exact ⟨modes', hdec, (hsub.map _).nodup hnd, fun n' hn' => hit n' (hsub.subset hn'), rfl, hmask⟩

/-- **`list.erase(core->getLockIter())`** on a side holding `l`: the node erased is the
one of `l`. -/
theorem SideOk.eraseIter (h : SideOk s L cnt modes) {l : Nat} (hl : l ∈ L.map (·.core)) :
    ∃ L₁ n L₂, n.core = l ∧ L = L₁ ++ n :: L₂ ∧
      eraseIter L (s.cores l).resIter = pure (L₁ ++ L₂) := by
  obtain ⟨n, hn, rfl⟩ := List.mem_map.mp hl
  obtain ⟨n', L₁, L₂, -, hp, hL, he⟩ := List.exists_of_eraseP (p := (·.addr == n.addr)) hn (by simp)
  have hn' : n' = n := List.inj_on_of_nodup_map h.addr_nodup (by simp [hL]) hn (by simpa using hp)
  subst hn'
  refine ⟨L₁, n', L₂, rfl, hL, ?_⟩
  rw [(h.iter n' hn).1, NovaDb.Mgl.eraseIter, if_pos (List.any_eq_true.mpr ⟨n', hn, by simp⟩), he]
  rfl

/-- Removing the node of a core that the list holds once erases that core. -/
theorem map_core_remove {L₁ L₂ : List ListNode} {n : ListNode}
    (h : ((L₁ ++ n :: L₂).map (·.core)).Nodup) :
    (L₁ ++ L₂).map (·.core) = ((L₁ ++ n :: L₂).map (·.core)).erase n.core := by
  have hn : n.core ∉ L₁.map (·.core) := by
    rw [List.map_append, List.map_cons, List.nodup_append] at h
    exact fun hm => h.2.2 hm (.head _)
  rw [List.map_append, List.map_append, List.map_cons, List.erase_append_right _ hn,
    List.erase_cons_head]

/-- The other nodes of a list that holds each core once belong to other cores. -/
theorem core_ne_of_remove {L₁ L₂ : List ListNode} {n : ListNode}
    (h : ((L₁ ++ n :: L₂).map (·.core)).Nodup) : ∀ n' ∈ L₁ ++ L₂, n'.core ≠ n.core :=
  fun n' hn' e => by
    have : n.core ∈ (L₁ ++ L₂).map (·.core) := e ▸ List.mem_map_of_mem _ hn'
    rw [map_core_remove h] at this
    exact h.not_mem_erase this

/-! ## The counting calls of a context -/

/-- `incrRunningRef` that passes its check, in the form the later proofs rewrite with. -/
theorem LockSchedCtx.incrRunningRef_eq {c : LockSchedCtx} {m : LockMode} {cnt' : LockMode → Nat}
    {modes' : Nat} (h : incrRef c.runningRefCnt c.runningModes m "_runningModes" =
      .ok (cnt', modes')) :
    c.incrRunningRef m = pure { c with runningRefCnt := cnt', runningModes := modes' } := by
  simp only [LockSchedCtx.incrRunningRef, h]; rfl

end NovaDb.Mgl
