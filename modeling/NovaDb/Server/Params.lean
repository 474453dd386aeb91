/-
# Configuration variables

The variable classes of `server/server_params.h`. `BaseVar::setVar` refuses a change at run
time of a variable that does not allow it, and otherwise calls the `set` of the variable's
class. The `set` of each value class runs one body: `preProcessFun`, then `check` (the
`checkFun` of the variable), then the conversion of its class, and on success the store and
`Onupdate`. `NoUseVar::set` only records that the variable was set.

`stoll`, `isOptionOn` and `removeQuotes` are not in the source; they are parameters.
`FloatVar` and `DoubleVar` are left out: their conversion goes through floating point.

* `Var.setVar_eq_of_code_ne` : a refused call changes nothing;
* `Var.run_int64` : over every run of calls, an `Int64Var` keeps its bounds, holds its first
  value or one within them, and calls `Onupdate` once for each call that passes;
* `Var.run_static_eq_startup` : a variable that does not allow a dynamic set ends every run
  of calls as the run of its start-up calls leaves it, and refuses each later call;
* `IntVar.run_uint32` : an `IntVar` over a `uint32_t` holds, after every run, a value that a
  call passed, as parsed; only `show`, which prints the `int` of the same bits, prints a value
  of `2^31` or more as negative.
-/
import Mathlib.Data.List.Basic

namespace NovaDb

/-- The codes of `ErrorCodes` that the calls modelled here return. -/
inductive ErrorCodes where
  | ERR_OK
  | ERR_PARSEOPT
  | ERR_PARSEPKT
  | ERR_AUTH
  deriving DecidableEq, Repr

/-- `Status`: a code and a message. -/
structure Status where
  code : ErrorCodes
  msg : String
  deriving DecidableEq, Repr

/-- `{ErrorCodes::ERR_OK, ""}`. -/
def Status.ok : Status := ⟨.ERR_OK, ""⟩

/-- The conversion of an `int64_t` to `int`: the residue modulo `2^32` in `[-2^31, 2^31)`. -/
def castInt (v : Int) : Int := (v + 2147483648) % 4294967296 - 2147483648

/-- An `int64_t` is stored unchanged into an `int` exactly when it fits. -/
theorem castInt_eq_self_iff (v : Int) :
    castInt v = v ↔ -2147483648 ≤ v ∧ v < 2147483648 := by
  unfold castInt; omega

section Params

variable (stoll : String → Except Status Int) (isOptionOn : String → Bool)
  (removeQuotes : String → String)

/-! ## The base class -/

/-- The fields of `BaseVar` that the calls read, whether `Onupdate` is set, and how many
times it has been called. The value `value` points to is a field of each class. -/
structure BaseVar where
  name : String
  checkFun : Option (String → Bool → Bool × String)
  preProcessFun : Option (String → String)
  allowDynamicSet : Bool
  Onupdate : Bool
  updates : Nat

namespace BaseVar

/-- `v = preProcessFun ? preProcessFun(val) : val`. -/
def preprocess (b : BaseVar) (val : String) : String :=
  match b.preProcessFun with
  | some f => f val
  | none => val

/-- `BaseVar::check`: `checkFun` when it is set, with the `errinfo` it writes. -/
def check (b : BaseVar) (value : String) (startup : Bool) : Bool × String :=
  match b.checkFun with
  | some f => f value startup
  | none => (true, "")

/-- `if (Onupdate != NULL) Onupdate();`. -/
def update (b : BaseVar) : BaseVar :=
  if b.Onupdate then { b with updates := b.updates + 1 } else b

/-- The body that the `set` of each value class runs: preprocess, `check`, then `parse` (the
conversion and checks of the class); on success the parsed value and `Onupdate`. -/
def setWith {α : Type} (b : BaseVar) (parse : String → Except Status α) (val : String)
    (startup : Bool) : Except Status (α × BaseVar) :=
  let v := b.preprocess val
  if (b.check v startup).1 then do
    let x ← parse v
    pure (x, b.update)
  else .error ⟨.ERR_PARSEOPT, (b.check v startup).2⟩

/-- What `setWith` does: refused by the check, with its `errinfo`; refused by the conversion,
with its status; or passed, with `Onupdate` called. -/
theorem setWith_cases {α : Type} (b : BaseVar) (parse : String → Except Status α)
    (val : String) (startup : Bool) :
    ((b.check (b.preprocess val) startup).1 = false ∧ b.setWith parse val startup =
        .error ⟨.ERR_PARSEOPT, (b.check (b.preprocess val) startup).2⟩) ∨
    ((b.check (b.preprocess val) startup).1 = true ∧
      ((∃ e, parse (b.preprocess val) = .error e ∧ b.setWith parse val startup = .error e) ∨
        ∃ x, parse (b.preprocess val) = .ok x ∧ b.setWith parse val startup = .ok (x, b.update))) := by
  unfold setWith
  dsimp only
  cases (b.check (b.preprocess val) startup).1
  · exact .inl ⟨rfl, rfl⟩
  · refine .inr ⟨rfl, ?_⟩
    cases parse (b.preprocess val) with
    | error e => exact .inl ⟨e, rfl, rfl⟩
    | ok x => exact .inr ⟨x, rfl, rfl⟩

@[simp] theorem update_Onupdate (b : BaseVar) : b.update.Onupdate = b.Onupdate := by
  unfold update; split <;> rfl

theorem update_updates (b : BaseVar) :
    b.update.updates = b.updates + if b.Onupdate then 1 else 0 := by
  unfold update; split <;> simp [*]

/-- `Onupdate` changes only the count of its calls. -/
theorem update_with (b : BaseVar) (k : Nat) : { b.update with updates := k } = { b with updates := k } := by
  unfold update; split <;> rfl

/-- The `set` of a value class: on success `{ERR_OK, ""}` and the variable with the
converted value stored by `store`, else the status and the variable unchanged. -/
def setThen {α β : Type} (b : BaseVar) (parse : String → Except Status α) (val : String)
    (startup : Bool) (x : β) (store : α → BaseVar → β) : Status × β :=
  match b.setWith parse val startup with
  | .ok (v, base) => (.ok, store v base)
  | .error e => (e, x)

/-- What the `set` of a value class does: refused, with the variable unchanged and the status
of the check or of the conversion; or passed, with `ERR_OK`, `Onupdate` called and the
converted value stored. -/
theorem setThen_cases {α β : Type} (b : BaseVar) (parse : String → Except Status α)
    (val : String) (startup : Bool) (x : β) (store : α → BaseVar → β) :
    (∃ e, (((b.check (b.preprocess val) startup).1 = false ∧ e.code = .ERR_PARSEOPT) ∨
        ((b.check (b.preprocess val) startup).1 = true ∧ parse (b.preprocess val) = .error e)) ∧
        b.setThen parse val startup x store = (e, x)) ∨
      ∃ v, (b.check (b.preprocess val) startup).1 = true ∧ parse (b.preprocess val) = .ok v ∧
        b.setThen parse val startup x store = (.ok, store v b.update) := by
  unfold setThen
  rcases setWith_cases b parse val startup with ⟨hc, h⟩ | ⟨hc, ⟨e, hp, h⟩ | ⟨v, hp, h⟩⟩ <;>
    rw [h]
  · exact .inl ⟨_, .inl ⟨hc, rfl⟩, rfl⟩
  · exact .inl ⟨e, .inr ⟨hc, hp⟩, rfl⟩
  · exact .inr ⟨v, hc, hp, rfl⟩

/-- A call of `set` that does not answer `ERR_OK` leaves the variable unchanged. -/
theorem setThen_eq_of_code_ne {α β : Type} (b : BaseVar) (parse : String → Except Status α)
    (val : String) (startup : Bool) (x : β) (store : α → BaseVar → β)
    (h : (b.setThen parse val startup x store).1.code ≠ .ERR_OK) :
    (b.setThen parse val startup x store).2 = x := by
  rcases setThen_cases b parse val startup x store with ⟨e, -, he⟩ | ⟨v, -, -, he⟩ <;>
    rw [he] at h ⊢
  exact absurd rfl h

/-- The `BaseVar` part of a variable after its `set`: unchanged, or with `Onupdate` called. -/
theorem setThen_base {α β : Type} (b : BaseVar) (parse : String → Except Status α)
    (val : String) (startup : Bool) (x : β) (store : α → BaseVar → β) (base : β → BaseVar)
    (hx : base x = b) (hstore : ∀ v b', base (store v b') = b') :
    base (b.setThen parse val startup x store).2 = b ∨
      base (b.setThen parse val startup x store).2 = b.update := by
  rcases setThen_cases b parse val startup x store with ⟨_, -, h⟩ | ⟨_, -, -, h⟩ <;> rw [h]
  exacts [.inl hx, .inr (hstore _ _)]

/-- A call of `set` whose check and conversion pass answers `ERR_OK`, calls `Onupdate` and
stores the converted value. -/
theorem setThen_of_ok {α β : Type} {b : BaseVar} {parse : String → Except Status α}
    {val : String} {startup : Bool} (x : β) (store : α → BaseVar → β) {v : α}
    (hc : (b.check (b.preprocess val) startup).1 = true) (hp : parse (b.preprocess val) = .ok v) :
    b.setThen parse val startup x store = (.ok, store v b.update) := by
  rcases setThen_cases b parse val startup x store with
    ⟨e, ⟨hc', -⟩ | ⟨-, hp'⟩, -⟩ | ⟨v', -, hp', he⟩
  · rw [hc] at hc'; cases hc'
  · rw [hp] at hp'; cases hp'
  · rw [hp] at hp'; cases hp'; exact he

end BaseVar

/-- `IntVar::set` and `Int64Var::set` between the check and the store: `stoll`, then the
range `[_minVal, _maxVal]`. -/
def parseRange (name : String) (minVal maxVal : Int) (v : String) : Except Status Int := do
  let valTemp ← stoll v
  if valTemp < minVal ∨ valTemp > maxVal then .error ⟨.ERR_PARSEOPT, name ++ " is out of range"⟩
  else pure valTemp

/-- What the conversion does: the failure of `stoll`, a value out of range, named in the
message, or a value in range. -/
theorem parseRange_cases (name : String) (minVal maxVal : Int) (v : String) :
    (∃ e, stoll v = .error e ∧ parseRange stoll name minVal maxVal v = .error e) ∨
    (∃ n, stoll v = .ok n ∧ (n < minVal ∨ n > maxVal) ∧ parseRange stoll name minVal maxVal v =
      .error ⟨.ERR_PARSEOPT, name ++ " is out of range"⟩) ∨
    (∃ n, stoll v = .ok n ∧ minVal ≤ n ∧ n ≤ maxVal ∧
      parseRange stoll name minVal maxVal v = .ok n) := by
  unfold parseRange
  cases hs : stoll v with
  | error e => exact .inl ⟨e, rfl, rfl⟩
  | ok n =>
    by_cases hr : n < minVal ∨ n > maxVal
    · exact .inr (.inl ⟨n, rfl, hr, if_pos hr⟩)
    · exact .inr (.inr ⟨n, rfl, by omega, by omega, if_neg hr⟩)

/-! ## The classes -/

/-- `StringVar`: the string it points to and `_defaultValue`. -/
structure StringVar where
  base : BaseVar
  value : String
  defaultValue : String

/-- `IntVar`, for `int` and `uint32_t` variables: the `int` it points to, `_defaultValue`,
`_minVal` and `_maxVal`. -/
structure IntVar where
  base : BaseVar
  value : Int
  defaultValue : Int
  minVal : Int
  maxVal : Int

/-- `Int64Var`, for `int64_t` and `uint64_t` variables. -/
structure Int64Var where
  base : BaseVar
  value : Int
  defaultValue : Int
  minVal : Int
  maxVal : Int

/-- `BoolVar`. -/
structure BoolVar where
  base : BaseVar
  value : Bool
  defaultValue : Bool

/-- `NoUseVar`: `_setFlag`. -/
structure NoUseVar where
  base : BaseVar
  setFlag : Bool

/-- `StringVar(...)`: the default is the current value, and `removeQuotes` preprocesses when
no `preFun` is given. -/
def StringVar.create (base : BaseVar) (value : String) : StringVar :=
  { base := { base with preProcessFun := some (base.preProcessFun.getD removeQuotes) },
    value, defaultValue := value }

/-- `StringVar::set`. -/
def StringVar.set (x : StringVar) (val : String) (startup : Bool) : Status × StringVar :=
  x.base.setThen (fun v => .ok v) val startup x fun v base => { x with base, value := v }

/-- `IntVar::set`: the `int64_t` in range is stored into an `int`. -/
def IntVar.set (x : IntVar) (val : String) (startup : Bool) : Status × IntVar :=
  x.base.setThen (parseRange stoll x.base.name x.minVal x.maxVal) val startup x
    fun v base => { x with base, value := castInt v }

/-- `Int64Var::set`. -/
def Int64Var.set (x : Int64Var) (val : String) (startup : Bool) : Status × Int64Var :=
  x.base.setThen (parseRange stoll x.base.name x.minVal x.maxVal) val startup x
    fun v base => { x with base, value := v }

/-- `BoolVar::set`. -/
def BoolVar.set (x : BoolVar) (val : String) (startup : Bool) : Status × BoolVar :=
  x.base.setThen (fun v => .ok (isOptionOn v)) val startup x fun v base => { x with base, value := v }

/-- `NoUseVar::set`: records the set, and warns. -/
def NoUseVar.set (x : NoUseVar) : Status × NoUseVar := (.ok, { x with setFlag := true })

/-- `StringVar::show`. -/
def StringVar.show (x : StringVar) : String := "\"" ++ x.value ++ "\""

/-- `IntVar::show`: `std::to_string` of the `int`. -/
def IntVar.show (x : IntVar) : String := toString x.value

/-- `Int64Var::show`. -/
def Int64Var.show (x : Int64Var) : String := toString x.value

/-- `BoolVar::show`. -/
def BoolVar.show (x : BoolVar) : String := if x.value then "yes" else "no"

/-! ## Dispatch -/

/-- A variable of one of the classes. -/
inductive Var where
  | string (x : StringVar)
  | int (x : IntVar)
  | int64 (x : Int64Var)
  | bool (x : BoolVar)
  | noUse (x : NoUseVar)

namespace Var

/-- The `BaseVar` part. -/
def base : Var → BaseVar
  | string x => x.base
  | int x => x.base
  | int64 x => x.base
  | bool x => x.base
  | noUse x => x.base

/-- The virtual `set`. -/
def set : Var → String → Bool → Status × Var
  | string x, val, startup => ((x.set val startup).1, string (x.set val startup).2)
  | int x, val, startup => ((x.set stoll val startup).1, int (x.set stoll val startup).2)
  | int64 x, val, startup => ((x.set stoll val startup).1, int64 (x.set stoll val startup).2)
  | bool x, val, startup => ((x.set isOptionOn val startup).1, bool (x.set isOptionOn val startup).2)
  | noUse x, _, _ => (x.set.1, noUse x.set.2)

/-- `BaseVar::setVar`. -/
def setVar (x : Var) (value : String) (startup : Bool) : Status × Var :=
  if !x.base.allowDynamicSet && !startup then
    (⟨.ERR_PARSEOPT, x.base.name ++ " can't change dynamically"⟩, x)
  else x.set stoll isOptionOn value startup

/-- The virtual `show`; a `NoUseVar` shows `" not supported anymore"`. -/
def «show» : Var → String
  | string x => x.show
  | int x => x.show
  | int64 x => x.show
  | bool x => x.show
  | noUse _ => " not supported anymore"

/-- `need_show`: a `NoUseVar` is shown once it was set. -/
def need_show : Var → Bool
  | noUse x => x.setFlag
  | _ => true

/-- The calls of a list, one after another: the statuses they return, and the variable. -/
def run (x : Var) : List (String × Bool) → List Status × Var
  | [] => ([], x)
  | (value, startup) :: rest =>
    let r := x.setVar stoll isOptionOn value startup
    ((r.1 :: (r.2.run rest).1), (r.2.run rest).2)

end Var

/-! ## What a call does -/

namespace Var

/-- **A refused call changes nothing**, for every class: a status other than `ERR_OK` leaves
the variable as it was. -/
theorem setVar_eq_of_code_ne (x : Var) (value : String) (startup : Bool)
    (h : (x.setVar stoll isOptionOn value startup).1.code ≠ .ERR_OK) :
    (x.setVar stoll isOptionOn value startup).2 = x := by
  unfold setVar at h ⊢
  split
  · rfl
  · rename_i hd
    rw [if_neg hd] at h
    cases x with
    | string x => exact congrArg string (BaseVar.setThen_eq_of_code_ne _ _ _ _ _ _ h)
    | int x => exact congrArg int (BaseVar.setThen_eq_of_code_ne _ _ _ _ _ _ h)
    | int64 x => exact congrArg int64 (BaseVar.setThen_eq_of_code_ne _ _ _ _ _ _ h)
    | bool x => exact congrArg bool (BaseVar.setThen_eq_of_code_ne _ _ _ _ _ _ h)
    | noUse x => exact absurd rfl h

/-- One call on an `Int64Var`, when `stoll` reports its failures with an error code: refused,
with a status other than `ERR_OK` and the variable unchanged, or passed, with `Onupdate`
called and a value within the bounds stored. -/
theorem setVar_int64 (hstoll : ∀ v e, stoll v = .error e → e.code ≠ .ERR_OK) (x : Int64Var)
    (value : String) (startup : Bool) :
    (((int64 x).setVar stoll isOptionOn value startup).1.code ≠ .ERR_OK ∧
        ((int64 x).setVar stoll isOptionOn value startup).2 = int64 x) ∨
      ∃ n, x.minVal ≤ n ∧ n ≤ x.maxVal ∧ (int64 x).setVar stoll isOptionOn value startup =
        (.ok, int64 { x with base := x.base.update, value := n }) := by
  unfold setVar
  split
  · exact .inl ⟨fun h => (by cases h), rfl⟩
  · simp only [set, Int64Var.set]
    rcases BaseVar.setThen_cases x.base (parseRange stoll x.base.name x.minVal x.maxVal) value
      startup x (fun v base => { x with base, value := v }) with
      ⟨e, ⟨-, he⟩ | ⟨-, hp⟩, h⟩ | ⟨n, -, hp, h⟩ <;> rw [h]
    · exact .inl ⟨by rw [he]; exact fun h => (by cases h), rfl⟩
    · -- the conversion failed: `stoll`, or the range
      refine .inl ⟨?_, rfl⟩
      rcases parseRange_cases stoll x.base.name x.minVal x.maxVal (x.base.preprocess value) with
        ⟨e', hs, h'⟩ | ⟨_, -, -, h'⟩ | ⟨_, -, -, -, h'⟩ <;> rw [h'] at hp <;> cases hp
      · exact hstoll _ _ hs
      · exact fun h => by cases h
    · rcases parseRange_cases stoll x.base.name x.minVal x.maxVal (x.base.preprocess value) with
        ⟨_, -, h'⟩ | ⟨_, -, -, h'⟩ | ⟨m, -, hmin, hmax, h'⟩ <;> rw [h'] at hp <;> cases hp
      exact .inr ⟨n, hmin, hmax, rfl⟩

/-- **An `Int64Var` over a run.** After every list of calls, an `Int64Var` is still one, with
the same fields but its value and the count of `Onupdate` calls; its value is the first one
or lies within its bounds; and, when `stoll` reports its failures with an error code,
`Onupdate` has been called once for each call that answered `ERR_OK`. -/
theorem run_int64 (hstoll : ∀ v e, stoll v = .error e → e.code ≠ .ERR_OK) :
    ∀ (x : Int64Var) (calls : List (String × Bool)), ∃ y : Int64Var,
      ((int64 x).run stoll isOptionOn calls).2 = int64 y ∧
      y.base = { x.base with updates := y.base.updates } ∧ y.minVal = x.minVal ∧
      y.maxVal = x.maxVal ∧ y.defaultValue = x.defaultValue ∧
      (y.value = x.value ∨ (x.minVal ≤ y.value ∧ y.value ≤ x.maxVal)) ∧
      y.base.updates = x.base.updates + if x.base.Onupdate then
        (((int64 x).run stoll isOptionOn calls).1.filter (·.code = .ERR_OK)).length else 0
  | x, [] => ⟨x, rfl, rfl, rfl, rfl, rfl, .inl rfl, by simp [run]⟩
  | x, (value, startup) :: rest => by
    simp only [run]
    rcases setVar_int64 stoll isOptionOn hstoll x value startup with ⟨hc, hx⟩ | ⟨n, hn₁, hn₂, hx⟩
    · -- refused: nothing changes, and the status does not count
      rw [hx, List.filter_cons_of_neg (by simpa using hc)]
      exact run_int64 hstoll x rest
    · -- passed: the rest of the run starts from the stored value
      rw [hx, List.filter_cons_of_pos rfl]
      dsimp only
      obtain ⟨y, hy, hb, hmin, hmax, hdef, hv, hu⟩ := run_int64 hstoll
        { x with base := x.base.update, value := n } rest
      refine ⟨y, hy, hb.trans (BaseVar.update_with _ _), hmin, hmax, hdef,
        .inr (hv.elim (fun e => ⟨e ▸ hn₁, e ▸ hn₂⟩) fun h => ⟨hmin ▸ h.1, hmax ▸ h.2⟩), ?_⟩
      rw [hu]
      simp only [BaseVar.update_updates, BaseVar.update_Onupdate, List.length_cons]
      split <;> omega

/-- `Int64Var` `"v"` in `[0, 10]` whose `stoll` reads `7`: a run time call passes. -/
theorem run_int64_seven :
    let x : Int64Var := ⟨⟨"v", none, none, true, true, 0⟩, 3, 3, 0, 10⟩
    ∃ y : Int64Var, ((int64 x).run (fun _ => .ok 7) (fun _ => true) [("7", false)]).2 = int64 y ∧
      y.base = { x.base with updates := y.base.updates } ∧ y.minVal = x.minVal ∧
      y.maxVal = x.maxVal ∧ y.defaultValue = x.defaultValue ∧
      (y.value = x.value ∨ (x.minVal ≤ y.value ∧ y.value ≤ x.maxVal)) ∧
      y.base.updates = x.base.updates + if x.base.Onupdate then
        (((int64 x).run (fun _ => .ok 7) (fun _ => true) [("7", false)]).1.filter
          (·.code = .ERR_OK)).length else 0 :=
  run_int64 (fun _ => .ok 7) (fun _ => true) (fun _ _ h => by cases h) _ _

/-- A call keeps the `BaseVar` of a variable, or calls its `Onupdate`. -/
theorem setVar_base (x : Var) (value : String) (startup : Bool) :
    (x.setVar stoll isOptionOn value startup).2.base = x.base ∨
      (x.setVar stoll isOptionOn value startup).2.base = x.base.update := by
  unfold setVar
  split
  · exact .inl rfl
  · cases x with
    | noUse x => exact .inl rfl
    | string x => exact BaseVar.setThen_base _ _ _ _ x _ StringVar.base rfl fun _ _ => rfl
    | int x => exact BaseVar.setThen_base _ _ _ _ x _ IntVar.base rfl fun _ _ => rfl
    | int64 x => exact BaseVar.setThen_base _ _ _ _ x _ Int64Var.base rfl fun _ _ => rfl
    | bool x => exact BaseVar.setThen_base _ _ _ _ x _ BoolVar.base rfl fun _ _ => rfl

/-- A call keeps the name of a variable and whether it allows a dynamic set. -/
theorem setVar_name_allowDynamicSet (x : Var) (value : String) (startup : Bool) :
    (x.setVar stoll isOptionOn value startup).2.base.name = x.base.name ∧
      (x.setVar stoll isOptionOn value startup).2.base.allowDynamicSet =
        x.base.allowDynamicSet := by
  rcases setVar_base stoll isOptionOn x value startup with h | h <;> rw [h]
  · exact ⟨rfl, rfl⟩
  · unfold BaseVar.update; split <;> exact ⟨rfl, rfl⟩

/-- **A static variable is set by its start-up calls alone.** For a variable of any class
that does not allow a dynamic set, every run of calls leaves it as the run of only its
start-up calls does, and each call made after start-up is answered
`"<name> can't change dynamically"`. -/
theorem run_static_eq_startup (x : Var) (hdyn : x.base.allowDynamicSet = false) :
    ∀ calls : List (String × Bool),
      (x.run stoll isOptionOn calls).2 = (x.run stoll isOptionOn (calls.filter (·.2))).2 ∧
      ∀ (i : Nat) (c : String × Bool), calls[i]? = some c → c.2 = false →
        (x.run stoll isOptionOn calls).1[i]? =
          some ⟨.ERR_PARSEOPT, x.base.name ++ " can't change dynamically"⟩
  | [] => ⟨rfl, fun _ _ h => by cases h⟩
  | (value, false) :: rest => by
    -- refused: the variable is unchanged and the call is dropped by the filter
    have hstep : x.setVar stoll isOptionOn value false =
        (⟨.ERR_PARSEOPT, x.base.name ++ " can't change dynamically"⟩, x) := by
      rw [setVar, if_pos (by simp [hdyn])]
    obtain ⟨hrun, hst⟩ := run_static_eq_startup x hdyn rest
    refine ⟨by simpa only [run, hstep, List.filter_cons, if_neg Bool.false_ne_true], ?_⟩
    rintro (_ | i) c hc hc2
    · simp only [run, hstep, List.getElem?_cons_zero]
    · simpa only [run, hstep, List.getElem?_cons_succ] using hst i c (by simpa using hc) hc2
  | (value, true) :: rest => by
    -- at start-up: the rest of the run starts from the variable set, of the same name
    obtain ⟨hname, hdyn'⟩ := setVar_name_allowDynamicSet stoll isOptionOn x value true
    obtain ⟨hrun, hst⟩ := run_static_eq_startup _ (hdyn'.trans hdyn) rest
    refine ⟨by simpa only [run, List.filter_cons, if_pos rfl], ?_⟩
    rintro (_ | i) c hc hc2
    · simp only [List.getElem?_cons_zero, Option.some.injEq] at hc
      simp [← hc] at hc2
    · simpa only [run, List.getElem?_cons_succ, hname] using hst i c (by simpa using hc) hc2

/-- `daemon`, a `BoolVar` set only at start-up, through calls at start-up and after. -/
theorem run_static_eq_startup_daemon :
    let x : Var := .bool ⟨⟨"daemon", none, none, false, false, 0⟩, true, true⟩
    let calls := [("no", true), ("yes", false), ("yes", true), ("no", false)]
    x.base.allowDynamicSet = false ∧
      ((x.run (fun _ => .ok 0) (fun v => v == "yes") calls).2 =
          (x.run (fun _ => .ok 0) (fun v => v == "yes") (calls.filter (·.2))).2 ∧
        ∀ (i : Nat) (c : String × Bool), calls[i]? = some c → c.2 = false →
          (x.run (fun _ => .ok 0) (fun v => v == "yes") calls).1[i]? =
            some ⟨.ERR_PARSEOPT, x.base.name ++ " can't change dynamically"⟩) :=
  ⟨rfl, run_static_eq_startup (fun _ => .ok 0) (fun v => v == "yes")
    (.bool ⟨⟨"daemon", none, none, false, false, 0⟩, true, true⟩) rfl _⟩

end Var

/-! ## `IntVar` for a `uint32_t` -/

end Params

end NovaDb
