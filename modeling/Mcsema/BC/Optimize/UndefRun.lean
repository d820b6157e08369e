import Mcsema.BC.Optimize.Undef
import Mcsema.IR.Semantics

/-!
# mcsema: what `RemoveUndefFuncCalls` does to a run

`ReplaceUndefIntrinsic` replaces each call of an undefined-value intrinsic by `undef`, and each
cmp or cast the calls reach by `undef` of the cmp's or cast's own type.  Read as LLVM `undef`, a
call of `__remill_undefined_W` is some `W`-bit value, and an `undef` of a type is any value of its
width.  The first replacement keeps what a function can do; the second does not, since the result
of a cast or a compare of a `W`-bit value is not any value of its type: `zext` of an 8-bit value
stays below 256, while an `undef` of 64 bits is any 64-bit value.

**The reading.**  `readUndef` answers every call of an undefined-value intrinsic declared in
the module with a value of the declared width picked from the history of the run, and leaves
memory alone; each call adds an event to the history, so every call can be answered with its own
value.  The `undef` operands of the rewritten function draw from the stream of choices.

**Results.**
* `execCall_readUndef`: a call of an undefined-value intrinsic under the reading.
* `removeUndefFuncCalls_widens_zext`: on a function that returns `zext` of
  `__remill_undefined_8()`, the rewritten function can return 256, which the original, under
  every reading of the call, never returns.
-/

namespace Mcsema
namespace Optimize

open IR

section UndefRun

/-- `ctx` with every call of an undefined-value intrinsic declared in `m` answered by the value
`pick` gives for the history of the run and the callee, cut to the declared width. -/
def readUndef (ctx : Ctx) (m : Module) (pick : List Event → String → Nat) : Ctx :=
  { ctx with
    ext := fun evs name args M =>
      match m.getFunction name with
      | some fn =>
        if name ∈ undefIntrinsicNames then
          (.bits fn.type.ret.bitWidth (pick evs name % 2 ^ fn.type.ret.bitWidth), M)
        else ctx.ext evs name args M
      | none => ctx.ext evs name args M }

theorem memSizes_of_undefIntrinsic {name : String} (h : name ∈ undefIntrinsicNames) :
    memReadSize name = none ∧ memWriteSize name = none := by
  simp only [undefIntrinsicNames, List.mem_cons, List.not_mem_nil, or_false] at h
  rcases h with rfl | rfl | rfl | rfl | rfl | rfl <;> exact ⟨rfl, rfl⟩

/-- Under the reading, a call of an undefined-value intrinsic returns a value of its declared
width, logs the call and keeps memory. -/
theorem execCall_readUndef {ctx : Ctx} {m : Module} {pick : List Event → String → Nat}
    {name : String} {fn : Function} (hfn : m.getFunction name = some fn)
    (hname : name ∈ undefIntrinsicNames) (st : State) (args : List Val) :
    execCall (readUndef ctx m pick) st name args =
      some (.bits fn.type.ret.bitWidth (pick st.events name % 2 ^ fn.type.ret.bitWidth),
        { st with events := st.events ++ [.call name (args.map Val.erase)] }) := by
  obtain ⟨hr, hw⟩ := memSizes_of_undefIntrinsic hname
  simp [execCall, hr, hw, externalCall, readUndef, hfn, hname]

/-- A declared `__remill_undefined_8`. -/
def undefined8 : Function :=
  { name := "__remill_undefined_8", type := { ret := .int 8, params := [] }
    linkage := .external, attrs := [], blocks := [] }

/-- A function returning the zero extension of `u = __remill_undefined_8()` to 64 bits. -/
def zextUndefSub : Function where
  name := "sub_401000"
  type := { ret := .int 64, params := [.memory, .state, .int 64] }
  linkage := .external
  attrs := []
  blocks :=
    [ { label := 0
        insts :=
          [ { id := 1, op := .call, ty := .int 8, operands := [.func "__remill_undefined_8"] },
            { id := 2, op := .cast .zext, ty := .int 64, operands := [.inst 1] },
            { id := 3, op := .ret, ty := .void, operands := [.inst 2] } ] } ]

/-- What `RemoveUndefFuncCalls` makes of `zextUndefSub`: the call is gone, the `zext` takes an
8-bit `undef`, and the `ret` a 64-bit `undef` in place of the `zext`. -/
def zextUndefLowered : Function :=
  { zextUndefSub with
    blocks :=
      [ { label := 0
          insts :=
            [ { id := 2, op := .cast .zext, ty := .int 64, operands := [.undef (.int 8)] },
              { id := 3, op := .ret, ty := .void, operands := [.undef (.int 64)] } ] } ] }

/-- `zextUndefSub` with the declaration of the intrinsic it calls. -/
def zextUndef : Module where
  functions := [undefined8, zextUndefSub]
  globals := []
  constants := []

/-- The original returns the zero extension of an 8-bit value, below 256, under every reading
of the call, while after `RemoveUndefFuncCalls` the `zext` is replaced by a 64-bit `undef`, and the
rewritten function returns 256 for a choice of that `undef`. -/
theorem removeUndefFuncCalls_widens_zext (ord : UseOrder) :
    removeUndefFuncCalls ord zextUndef = .ok { zextUndef with functions := [zextUndefLowered] } ∧
    (∀ (ctx : Ctx) M, ∃ env st, runFunction { ctx with choice := fun _ => 256 } zextUndefLowered M 1 =
      some (some (some (.bits 64 256)), env, st)) ∧
    ∀ (ctx : Ctx) pick M fuel v env st,
      runFunction (readUndef ctx zextUndef pick) zextUndefSub M fuel =
        some (some (some v), env, st) → ∃ n < 256, v = .bits 64 n := by
  have hord : callersOf ord zextUndef undefined8.name = [1] :=
    List.perm_singleton.mp (ord.perm _ _)
  have hfs : undefIntrinsicNames.filterMap zextUndef.getFunction = [undefined8] := rfl
  refine ⟨?_, fun ctx M => ⟨_, _, rfl⟩, ?_⟩
  · simp only [removeUndefFuncCalls, hfs, List.foldlM_cons, List.foldlM_nil, replaceUndefIntrinsic,
      undefPropagation, hord]
    rfl
  · intro ctx pick M fuel v env st h
    have hfn : zextUndef.getFunction "__remill_undefined_8" = some undefined8 := rfl
    cases fuel with
    | zero => simp [runFunction, zextUndefSub, run] at h
    | succ fuel =>
      simp [runFunction, zextUndefSub, run, execBlock, evalPhis, execBody, Opcode.isPlain,
        execInst, evalInst, evalOperands, evalOperand, evalPure, applyOp, evalCast,
        execTerminator, Env.set, Val.isMem, undefined8, State.init, Ty.memory, Ty.bitWidth,
        execCall_readUndef hfn (by decide)] at h
      exact ⟨_, Nat.mod_lt _ (by decide), h.1.symm⟩

end UndefRun

end Optimize
end Mcsema
