/-
# The request loop of `RateLimiter`

`RateLimiter` of `utils/rate_limiter.h` wraps a `rocksdb::RateLimiter`. `Request(bytes)`
cuts a request into pieces of at most `GetSingleBurstBytes()`, the largest request the
RocksDB limiter takes, and passes each piece on; `SetBytesPerSecond` passes a new non-zero
rate on. RocksDB is not in the source: `singleBurst rate` stands for `GetSingleBurstBytes()`
of a limiter at `rate`.

* `requestLoop_eq` : with a positive burst the loop ends, after pieces of `burst` bytes and
  a last piece of the remainder;
* `requestLoop_eq_none` : with a zero burst a request of a positive size never ends;
* `RateLimiter.run_spec` : over every run of calls whose rates all have a positive burst,
  every call returns, the wrapper and the RocksDB limiter agree on the rate, which is the
  last non-zero rate set, and the pieces passed on add up to the bytes requested.
-/
import Mathlib

namespace NovaDb

/-! ## The loop -/

/-- The loop `while (left > 0)` of `RateLimiter::Request` with burst `singleBurst`: the sizes
passed to `_rateLimiter->Request`, in order; `none` when `fuel` runs out first. -/
def requestLoop (singleBurst : Nat) : (fuel left : Nat) → Option (List Nat)
  | _, 0 => some []
  | 0, _ + 1 => none
  | fuel + 1, left + 1 =>
    let rsize := min (left + 1) singleBurst
    (requestLoop singleBurst fuel (left + 1 - rsize)).map (rsize :: ·)

@[simp]
theorem requestLoop_zero (b fuel : Nat) : requestLoop b fuel 0 = some [] := by
  cases fuel <;> rfl

/-- The pieces of `left` bytes at burst `b`: `b` bytes each, then the remainder. -/
def pieces (b left : Nat) : List Nat :=
  List.replicate (left / b) b ++ if left % b = 0 then [] else [left % b]

/-- **The loop ends.** With a positive burst `b` and fuel for `⌈left / b⌉` turns, the loop
passes on `b` bytes at a time, then the remainder. -/
theorem requestLoop_eq {b : Nat} (hb : 0 < b) :
    ∀ {fuel left : Nat}, (left + b - 1) / b ≤ fuel → requestLoop b fuel left = some (pieces b left)
  | _, 0, _ => by simp [pieces]
  | 0, left + 1, hf => absurd hf (Nat.not_le.mpr (Nat.div_pos (by omega) hb))
  | fuel + 1, left + 1, hf => by
    simp only [requestLoop]
    by_cases hlt : left + 1 < b
    · rw [min_eq_left hlt.le, Nat.sub_self, requestLoop_zero]
      simp [pieces, Nat.div_eq_of_lt hlt, Nat.mod_eq_of_lt hlt]
    · have hle : b ≤ left + 1 := by omega
      have hf' : (left + 1 - b + b - 1) / b ≤ fuel := by
        rw [Nat.div_eq_sub_div hb (by omega)] at hf
        rw [show left + 1 - b + b - 1 = left + 1 + b - 1 - b by omega]
        omega
      rw [min_eq_right hle, requestLoop_eq hb hf', Option.map_some']
      simp only [pieces, Nat.div_eq_sub_div hb hle, ← Nat.mod_eq_sub_mod hle,
        List.replicate_succ, List.cons_append]

/-- Fuel `n` is enough for a request of `n` bytes. -/
theorem ceil_div_le_self {b : Nat} (hb : 0 < b) (n : Nat) : (n + b - 1) / b ≤ n :=
  (Nat.div_le_iff_le_mul_add_pred hb).mpr (by have := Nat.le_mul_of_pos_left n hb; omega)

/-- Two requests at a burst of `1000` bytes. -/
theorem requestLoop_eq_2500 :
    (0 < 1000 ∧ (2500 + 1000 - 1) / 1000 ≤ 3) ∧ requestLoop 1000 3 2500 = some (pieces 1000 2500) :=
  ⟨⟨by decide, by decide⟩, requestLoop_eq (by decide) (by decide)⟩

/-- The pieces add up to the request. -/
theorem sum_pieces (b left : Nat) : (pieces b left).sum = left := by
  have := Nat.div_add_mod' left b
  by_cases h : left % b = 0 <;> simp [pieces, h] <;> omega

/-- Each piece is positive and at most the burst. -/
theorem mem_pieces {b left c : Nat} (hb : 0 < b) (h : c ∈ pieces b left) : 0 < c ∧ c ≤ b := by
  simp only [pieces, List.mem_append, List.mem_replicate] at h
  rcases h with ⟨-, rfl⟩ | h
  · exact ⟨hb, le_rfl⟩
  · split at h
    · cases h
    · obtain rfl := List.mem_singleton.mp h
      exact ⟨Nat.pos_of_ne_zero ‹_›, (Nat.mod_lt _ hb).le⟩

/-- **A zero burst hangs.** With `GetSingleBurstBytes()` at `0`, every piece is empty and a
request of a positive size never leaves the loop, whatever the fuel. -/
theorem requestLoop_eq_none {left : Nat} (hleft : 0 < left) :
    ∀ fuel, requestLoop 0 fuel left = none := by
  obtain ⟨left, rfl⟩ : ∃ l, left = l + 1 := ⟨left - 1, by omega⟩
  intro fuel
  induction fuel with
  | zero => rfl
  | succ fuel ih => simp only [requestLoop, Nat.min_zero, Nat.sub_zero, ih, Option.map_none']

/-- A request of one byte at a zero burst. -/
theorem requestLoop_eq_none_one : 0 < 1 ∧ ∀ fuel, requestLoop 0 fuel 1 = none :=
  ⟨by decide, requestLoop_eq_none (by decide)⟩

/-- `bytes` turns are fuel enough: the loop at fuel `bytes` fails exactly when the burst is
`0` and the request is not empty, when the source loops for ever. -/
theorem requestLoop_self_eq_none_iff (b bytes : Nat) :
    requestLoop b bytes bytes = none ↔ b = 0 ∧ 0 < bytes := by
  rcases Nat.eq_zero_or_pos b with rfl | hb
  · rcases Nat.eq_zero_or_pos bytes with rfl | hpos
    · simp
    · simp [requestLoop_eq_none hpos, hpos]
  · rw [requestLoop_eq hb (ceil_div_le_self hb _)]
    simp [hb.ne']

/-! ## The wrapper -/

/-- `RateLimiter`: `_bytesPerSecond`, the rate of `_rateLimiter`, and the sizes passed to
`_rateLimiter->Request` so far. -/
structure RateLimiter where
  bytesPerSecond : Nat
  limiterRate : Nat
  requested : List Nat

/-- A call on a `RateLimiter`. -/
inductive RateCall where
  | setBytesPerSecond (bytesPerSecond : Nat)
  | request (bytes : Nat)

/-- The rate a call sets. -/
def RateCall.rate? : RateCall → Option Nat
  | .setBytesPerSecond r => some r
  | .request _ => none

/-- The bytes a call requests. -/
def RateCall.bytes : RateCall → Nat
  | .setBytesPerSecond _ => 0
  | .request b => b

namespace RateLimiter

/-- `RateLimiter(bytesPerSecond)`: `NewGenericRateLimiter(bytesPerSecond)` builds a limiter at
that rate. -/
def new (bytesPerSecond : Nat) : RateLimiter := ⟨bytesPerSecond, bytesPerSecond, []⟩

/-- `RateLimiter::SetBytesPerSecond`. -/
def setBytesPerSecond (rl : RateLimiter) (bytesPerSecond : Nat) : RateLimiter :=
  if bytesPerSecond ≠ 0 ∧ bytesPerSecond ≠ rl.bytesPerSecond then
    { rl with limiterRate := bytesPerSecond, bytesPerSecond := bytesPerSecond }
  else rl

section Calls

variable (singleBurst : Nat → Nat)

/-- `RateLimiter::Request(bytes)`, with `singleBurst` for `GetSingleBurstBytes()`; `none` when
the loop does not end (`requestLoop_self_eq_none_iff`). -/
def request (rl : RateLimiter) (bytes : Nat) : Option RateLimiter :=
  (requestLoop (singleBurst rl.limiterRate) bytes bytes).map fun cs =>
    { rl with requested := rl.requested ++ cs }

/-- One call. -/
def call (rl : RateLimiter) : RateCall → Option RateLimiter
  | .setBytesPerSecond r => some (rl.setBytesPerSecond r)
  | .request b => rl.request singleBurst b

/-- The calls of a list, one after another. -/
def run (rl : RateLimiter) : List RateCall → Option RateLimiter
  | [] => some rl
  | c :: rest => (rl.call singleBurst c).bind fun rl => rl.run rest

/-- `SetBytesPerSecond` on a wrapper that agrees with its limiter: a non-zero rate becomes the
rate of both, `0` changes nothing. -/
theorem setBytesPerSecond_spec {rl : RateLimiter} (hrep : rl.limiterRate = rl.bytesPerSecond)
    (r : Nat) :
    (rl.setBytesPerSecond r).limiterRate = (rl.setBytesPerSecond r).bytesPerSecond ∧
      (rl.setBytesPerSecond r).bytesPerSecond = (if r = 0 then rl.bytesPerSecond else r) ∧
      (rl.setBytesPerSecond r).requested = rl.requested := by
  unfold setBytesPerSecond
  by_cases h₁ : r = 0
  · simp [h₁, hrep]
  · by_cases h₂ : r = rl.bytesPerSecond
    · simp [h₁, h₂, hrep]
    · simp [h₁, h₂]

/-- A request at a rate with a positive burst returns and passes on its pieces. -/
theorem request_eq {rl : RateLimiter} {bytes : Nat} (hb : 0 < singleBurst rl.limiterRate) :
    rl.request singleBurst bytes =
      some { rl with requested := rl.requested ++ pieces (singleBurst rl.limiterRate) bytes } := by
  rw [request, requestLoop_eq hb (ceil_div_le_self hb _)]
  rfl

/-- The last non-zero rate a run sets. -/
theorem getLast?_getD_filter_cons (r x : Nat) (l : List Nat) :
    ((r :: l).filter (· ≠ 0)).getLast?.getD x =
      (l.filter (· ≠ 0)).getLast?.getD (if r = 0 then x else r) := by
  by_cases h : r = 0 <;> simp [h, List.getLast?_cons]

/-- **Runs of the wrapper.** From a wrapper that agrees with its limiter, over every run of
calls whose rates (the first and each non-zero rate set) all have a positive burst, every call
returns; the wrapper and the limiter agree on the rate, which is the last non-zero rate set or
else the first; and the pieces passed to the limiter are positive and add up to the bytes
requested. -/
theorem run_spec :
    ∀ (rl : RateLimiter) (calls : List RateCall), rl.limiterRate = rl.bytesPerSecond →
      (∀ r ∈ rl.bytesPerSecond :: (calls.filterMap RateCall.rate?).filter (· ≠ 0),
        0 < singleBurst r) →
      ∃ rl', rl.run singleBurst calls = some rl' ∧ rl'.limiterRate = rl'.bytesPerSecond ∧
        rl'.bytesPerSecond =
          ((calls.filterMap RateCall.rate?).filter (· ≠ 0)).getLast?.getD rl.bytesPerSecond ∧
        ∃ cs, rl'.requested = rl.requested ++ cs ∧ cs.sum = (calls.map RateCall.bytes).sum ∧
          ∀ c ∈ cs, 0 < c
  | rl, [], hrep, _ => ⟨rl, rfl, hrep, rfl, [], by simp⟩
  | rl, .setBytesPerSecond r :: rest, hrep, hb => by
    obtain ⟨hrep₁, hbps₁, hreq₁⟩ := setBytesPerSecond_spec hrep r
    have hb₁ : ∀ x ∈ (rl.setBytesPerSecond r).bytesPerSecond ::
        (rest.filterMap RateCall.rate?).filter (· ≠ 0), 0 < singleBurst x := by
      intro x hx
      rw [hbps₁] at hx
      apply hb x
      by_cases h : r = 0
      · simpa [h, RateCall.rate?] using hx
      · exact List.mem_cons_of_mem _ (by simpa [h, RateCall.rate?] using hx)
    obtain ⟨rl', hrun, hrep', hbps', cs, hcs, hsum, hpos⟩ := run_spec _ rest hrep₁ hb₁
    refine ⟨rl', hrun, hrep', ?_, cs, by rw [hcs, hreq₁], by simpa [RateCall.bytes] using hsum,
      hpos⟩
    rw [hbps', hbps₁, List.filterMap_cons, RateCall.rate?]
    exact (getLast?_getD_filter_cons r _ _).symm
  | rl, .request b :: rest, hrep, hb => by
    have hpos₀ : 0 < singleBurst rl.limiterRate := hrep ▸ hb _ (.head _)
    obtain ⟨rl', hrun, hrep', hbps', cs, hcs, hsum, hpos⟩ :=
      run_spec { rl with requested := rl.requested ++ pieces (singleBurst rl.limiterRate) b } rest
        hrep (fun x hx => hb x (by simpa [RateCall.rate?] using hx))
    refine ⟨rl', by rw [run, call, request_eq singleBurst hpos₀]; exact hrun, hrep', hbps',
      pieces (singleBurst rl.limiterRate) b ++ cs, by rw [hcs, List.append_assoc], ?_, ?_⟩
    · simp [hsum, sum_pieces, RateCall.bytes]
    · intro c hc
      rcases List.mem_append.mp hc with hc | hc
      · exact (mem_pieces hpos₀ hc).1
      · exact hpos c hc

end Calls

/-- A wrapper at 1 MB/s, with a burst of a tenth of the rate, through a request, a skipped
`SetBytesPerSecond(0)`, a new rate and another request. -/
theorem run_spec_one_mb :
    let calls := [RateCall.request 300000, .setBytesPerSecond 0, .setBytesPerSecond 2097152,
      .request 5]
    (new 1048576).limiterRate = (new 1048576).bytesPerSecond ∧
      (∀ r ∈ (new 1048576).bytesPerSecond :: (calls.filterMap RateCall.rate?).filter (· ≠ 0),
        0 < r / 10) ∧
      ∃ rl', (new 1048576).run (· / 10) calls = some rl' ∧ rl'.limiterRate = rl'.bytesPerSecond ∧
        rl'.bytesPerSecond = ((calls.filterMap RateCall.rate?).filter (· ≠ 0)).getLast?.getD
          (new 1048576).bytesPerSecond ∧
        ∃ cs, rl'.requested = (new 1048576).requested ++ cs ∧
          cs.sum = (calls.map RateCall.bytes).sum ∧ ∀ c ∈ cs, 0 < c :=
  ⟨rfl, by decide, run_spec (· / 10) (new 1048576) _ rfl (by decide)⟩

end RateLimiter

end NovaDb
