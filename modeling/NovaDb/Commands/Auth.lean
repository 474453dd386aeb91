/-
# `SELECT` and `AUTH`

The two commands of `commands/auth.cpp` that change a session: `SELECT` sets the database
of the session after three checks, and `AUTH` marks the session authenticated when the
password is the server's `requirepass`. The dispatcher, which checks the arity before
`SELECT` runs, and `stoll` are not in the source; `SELECT` is given `args[1]` and `stoll` is a
parameter.

Over every run of the two commands, on one session:

* `run_dbId` : the database stays below `dbNum`, and stays `0` in cluster mode;
* `run_authed` : the session ends authenticated exactly when it started so, or when some
  `AUTH` carried the password, and the server has one: with no `requirepass`, `AUTH` never
  authenticates.
-/
import NovaDb.Server.Params

namespace NovaDb

/-- The fields of `SessionCtx` that the commands set. -/
structure SessionCtx where
  dbId : Nat
  authed : Bool

/-- What the commands read of `ServerEntry`: `dbNum()`, `isClusterEnabled()` and
`requirepass()`. -/
structure ServerEntry where
  dbNum : Nat
  clusterEnabled : Bool
  requirepass : String

section Auth

variable (stoll : String → Except Status Int)

/-- `SelectCommand::run` on `args[1]`. -/
def SelectCommand.run (srv : ServerEntry) (ctx : SessionCtx) (arg : String) :
    Except Status SessionCtx :=
  match stoll arg with
  | .error _ => .error ⟨.ERR_PARSEOPT, "invalid DB index"⟩
  | .ok id =>
    if id < 0 ∨ id ≥ srv.dbNum then .error ⟨.ERR_PARSEOPT, "DB index is out of range"⟩
    else if srv.clusterEnabled ∧ id ≠ 0 then
      .error ⟨.ERR_PARSEOPT, "SELECT is not allowed in cluster mode"⟩
    else .ok { ctx with dbId := id.toNat }

/-- `AuthCommand::parse`. -/
def AuthCommand.parse : List String → Except Status String
  | [_, password] => .ok password
  | _ => .error ⟨.ERR_PARSEPKT, "invalid auth command"⟩

/-- `AuthCommand::run`. -/
def AuthCommand.run (srv : ServerEntry) (ctx : SessionCtx) (args : List String) :
    Except Status SessionCtx := do
  let password ← AuthCommand.parse args
  if srv.requirepass = "" then .error ⟨.ERR_AUTH, "Client sent AUTH, but no password is set"⟩
  else if srv.requirepass ≠ password then .error ⟨.ERR_AUTH, "invalid password"⟩
  else pure { ctx with authed := true }

/-- A command of a session. -/
inductive SessionCmd where
  | select (arg : String)
  | auth (args : List String)

/-- One command; a refused command leaves the session as it was. -/
def SessionCmd.exec (srv : ServerEntry) (ctx : SessionCtx) : SessionCmd → SessionCtx
  | .select arg => (SelectCommand.run stoll srv ctx arg).toOption.getD ctx
  | .auth args => (AuthCommand.run srv ctx args).toOption.getD ctx

/-- The session after the commands of a list. -/
def SessionCmd.run (srv : ServerEntry) : SessionCtx → List SessionCmd → SessionCtx
  | ctx, [] => ctx
  | ctx, c :: rest => SessionCmd.run srv (c.exec stoll srv ctx) rest

/-! ## One command -/

/-- `SELECT` either refuses, or sets a database below `dbNum`, which is `0` in cluster
mode, and nothing else. -/
theorem SelectCommand.run_cases (srv : ServerEntry) (ctx : SessionCtx) (arg : String) :
    (∃ e, SelectCommand.run stoll srv ctx arg = .error e) ∨
      ∃ id : Nat, id < srv.dbNum ∧ (srv.clusterEnabled = true → id = 0) ∧
        SelectCommand.run stoll srv ctx arg = .ok { ctx with dbId := id } := by
  unfold SelectCommand.run
  cases stoll arg with
  | error _ => exact .inl ⟨_, rfl⟩
  | ok id =>
    dsimp only
    by_cases h₁ : id < 0 ∨ id ≥ srv.dbNum
    · exact .inl ⟨_, if_pos h₁⟩
    · rw [if_neg h₁]
      by_cases h₂ : srv.clusterEnabled = true ∧ id ≠ 0
      · exact .inl ⟨_, if_pos h₂⟩
      · rw [if_neg h₂]
        exact .inr ⟨id.toNat, by omega, fun hc => by rw [not_not.mp (not_and.mp h₂ hc)]; rfl, rfl⟩

/-- `AUTH` passes exactly when it carries one password, the server's, and the server has
one; it then only marks the session authenticated. -/
theorem AuthCommand.run_ok_iff (srv : ServerEntry) (ctx ctx' : SessionCtx)
    (args : List String) :
    AuthCommand.run srv ctx args = .ok ctx' ↔
      srv.requirepass ≠ "" ∧ (∃ a, args = [a, srv.requirepass]) ∧
        ctx' = { ctx with authed := true } := by
  unfold AuthCommand.run
  match args with
  | [a, p] =>
    simp only [AuthCommand.parse, bind, Except.bind]
    by_cases h₁ : srv.requirepass = ""
    · simp [h₁]
    · by_cases h₂ : srv.requirepass = p
      · subst h₂; simp [h₁, pure, Except.pure, eq_comm]
      · simp [h₁, h₂, Ne.symm h₂]
  | [] | [_] | _ :: _ :: _ :: _ => simp [AuthCommand.parse, bind, Except.bind]

/-- One command keeps the database below `dbNum`, and at `0` in cluster mode. -/
theorem SessionCmd.exec_dbId {srv : ServerEntry} {ctx : SessionCtx} (c : SessionCmd)
    (h₁ : ctx.dbId < srv.dbNum) (h₂ : srv.clusterEnabled = true → ctx.dbId = 0) :
    (c.exec stoll srv ctx).dbId < srv.dbNum ∧
      (srv.clusterEnabled = true → (c.exec stoll srv ctx).dbId = 0) := by
  cases c with
  | select arg =>
    rcases SelectCommand.run_cases stoll srv ctx arg with ⟨e, he⟩ | ⟨id, hid, hcl, he⟩ <;>
      simp only [SessionCmd.exec, he, Except.toOption, Option.getD_none, Option.getD_some]
    · exact ⟨h₁, h₂⟩
    · exact ⟨hid, hcl⟩
  | auth args =>
    cases he : AuthCommand.run srv ctx args with
    | error e => simpa only [SessionCmd.exec, he, Except.toOption, Option.getD_none] using ⟨h₁, h₂⟩
    | ok ctx' =>
      obtain ⟨-, -, rfl⟩ := (AuthCommand.run_ok_iff srv ctx ctx' args).mp he
      simpa only [SessionCmd.exec, he, Except.toOption, Option.getD_some] using ⟨h₁, h₂⟩

/-- One command authenticates a session exactly when it already was, or the command is an
`AUTH` that carries the server's password, and the server has one. -/
theorem SessionCmd.exec_authed (srv : ServerEntry) (ctx : SessionCtx) (c : SessionCmd) :
    (c.exec stoll srv ctx).authed = true ↔
      ctx.authed = true ∨ (srv.requirepass ≠ "" ∧ ∃ a, c = .auth [a, srv.requirepass]) := by
  cases c with
  | select arg =>
    rcases SelectCommand.run_cases stoll srv ctx arg with ⟨e, he⟩ | ⟨id, -, -, he⟩ <;>
      simp [SessionCmd.exec, he, Except.toOption]
  | auth args =>
    have hok := AuthCommand.run_ok_iff srv ctx { ctx with authed := true } args
    cases he : AuthCommand.run srv ctx args with
    | error e =>
      rw [he] at hok
      simp only [SessionCmd.exec, he, Except.toOption, Option.getD_none, SessionCmd.auth.injEq]
      exact ⟨.inl, fun h => h.resolve_right fun ⟨h₁, a, h₂⟩ => by
        cases hok.mpr ⟨h₁, ⟨a, h₂⟩, rfl⟩⟩
    | ok ctx' =>
      obtain ⟨h₁, ⟨a, rfl⟩, rfl⟩ := (AuthCommand.run_ok_iff srv ctx ctx' _).mp he
      simp [SessionCmd.exec, he, Except.toOption, h₁]

/-! ## Runs -/

/-- **The database of a session over a run.** From a session whose database is below
`dbNum`, and `0` in cluster mode, every run of `SELECT` and `AUTH` keeps it so. -/
theorem run_dbId (srv : ServerEntry) :
    ∀ (ctx : SessionCtx) (cmds : List SessionCmd), ctx.dbId < srv.dbNum →
      (srv.clusterEnabled = true → ctx.dbId = 0) →
      (SessionCmd.run stoll srv ctx cmds).dbId < srv.dbNum ∧
        (srv.clusterEnabled = true → (SessionCmd.run stoll srv ctx cmds).dbId = 0)
  | _, [], h₁, h₂ => ⟨h₁, h₂⟩
  | _, c :: rest, h₁, h₂ =>
    have h := c.exec_dbId stoll h₁ h₂
    run_dbId srv _ rest h.1 h.2

/-- A session on database `0` of a server with `16` databases, in cluster mode, after a
refused `SELECT 3` and an `AUTH`. -/
theorem run_dbId_cluster :
    let srv : ServerEntry := ⟨16, true, "pw"⟩
    (SessionCmd.run (fun _ => .ok 3) srv ⟨0, false⟩ [.select "3", .auth ["auth", "pw"]]).dbId <
        srv.dbNum ∧
      (srv.clusterEnabled = true →
        (SessionCmd.run (fun _ => .ok 3) srv ⟨0, false⟩ [.select "3", .auth ["auth", "pw"]]).dbId =
          0) :=
  run_dbId (fun _ => .ok 3) _ _ _ (by decide) (fun _ => rfl)

/-- **Who authenticates a session.** After every run of `SELECT` and `AUTH`, a session is
authenticated exactly when it was so at the start, or the server has a `requirepass` and
some `AUTH` of the run carried it as its one argument. -/
theorem run_authed (srv : ServerEntry) :
    ∀ (ctx : SessionCtx) (cmds : List SessionCmd),
      (SessionCmd.run stoll srv ctx cmds).authed = true ↔
        ctx.authed = true ∨ (srv.requirepass ≠ "" ∧ ∃ a, SessionCmd.auth [a, srv.requirepass] ∈ cmds)
  | ctx, [] => by simp [SessionCmd.run]
  | ctx, c :: rest => by
    rw [SessionCmd.run, run_authed srv _ rest, SessionCmd.exec_authed]
    simp only [List.mem_cons]
    constructor
    · rintro ((h | ⟨h₁, a, rfl⟩) | ⟨h₁, a, h₂⟩)
      exacts [.inl h, .inr ⟨h₁, a, .inl rfl⟩, .inr ⟨h₁, a, .inr h₂⟩]
    · rintro (h | ⟨h₁, a, h₂ | h₂⟩)
      exacts [.inl (.inl h), .inl (.inr ⟨h₁, a, h₂.symm⟩), .inr ⟨h₁, a, h₂⟩]

end Auth

end NovaDb
