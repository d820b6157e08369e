import Mcsema.IR.Module

/-!
# mcsema: running a lifted function

The optimizer's memory lowering is meant to keep what a lifted function does.  This module fixes
what a function does: an interpreter over the blocks of one function.

**Values.**  A value is either the bits of an integer, float or pointer, with their width, or a
memory state, the value of a `Memory *`.  Memory holds one byte per address; an access of `n`
bytes is little-endian.  The environment binds instructions to values; every binding is checked
against the instruction's type (a `Memory *` holds a memory state, any other type bits).

**Undefined values.**  Every use of an `undef` constant of a type other than `Memory *` takes the
next value of a stream of choices, so a run is fixed by its inputs and the stream, and every
choice LLVM allows at a use is some stream.

**Calls.**  The `__remill_read_memory_*` and `__remill_write_memory_*` intrinsics read and write
memory.  In `snapshot` mode they act on the memory state passed to them, as remill's reading
has it (`read_N(m, a)` is the contents of `m` at `a`, `write_N(m, a, v)` is `m` updated at `a`
with `v`), and every call logs that memory state next to the current one; in the other mode they
act on the current memory.  Every other call goes to an external oracle, which sees the history
of events, the arguments with memory states erased, and the memory.

**Runs.**  `run` executes at most `fuel` blocks.  It records the events (memory accesses and
external calls) and the labels of the blocks entered, and returns `none` where the function is
stuck.
-/

namespace Mcsema
namespace IR

section Semantics

/-- Memory: one byte per address. -/
def Mem := Nat → Nat

/-- The `n` bytes at `a`, little-endian. -/
def Mem.read (M : Mem) (a : Nat) : Nat → Nat
  | 0 => 0
  | n + 1 => M a % 256 + 256 * Mem.read M (a + 1) n

/-- `M` with the `n` bytes at `a` set to `v`, little-endian. -/
def Mem.write (M : Mem) (a : Nat) : Nat → Nat → Mem
  | 0, _ => M
  | n + 1, v => Mem.write (fun x => if x = a then v % 256 else M x) (a + 1) n (v / 256)

/-- A run-time value: bits with their width, or a memory state. -/
inductive Val where
  | bits (width value : Nat)
  | mem (M : Mem)

/-- What an observer sees of a value: its bits, not a memory state. -/
def Val.erase : Val → Option Nat
  | .bits _ n => some n
  | .mem _ => none

/-- A value is a memory state. -/
def Val.isMem : Val → Bool
  | .bits _ _ => false
  | .mem _ => true

/-- Two values agree: the same bits, or two memory states. -/
def Val.Agree : Val → Val → Prop
  | .bits w n, .bits w' n' => w = w' ∧ n = n'
  | .mem _, .mem _ => True
  | _, _ => False

/-- The memory state an `undef` of type `Memory *` stands for. -/
def memToken : Val :=
  .mem fun _ => 0

/-- The width of a type's values in bits. -/
def Ty.bitWidth : Ty → Nat
  | .int w => w
  | .float => 32
  | .double => 64
  | .x86FP80 => 80
  | .ptr _ => 64
  | .named _ => 0
  | .void => 0

/-- The bytes a load or store of a type accesses. -/
def Ty.byteSize (t : Ty) : Nat :=
  (t.bitWidth + 7) / 8

/-- A cast of the `w`-bit value `n` to `dst`; floating-point conversions are a parameter. -/
def evalCast (fpConv : Ty → Nat → Nat → Nat) (op : CastOp) (w : Nat) (dst : Ty) (n : Nat) :
    Nat :=
  match op with
  | .trunc | .ptrtoint => n % 2 ^ dst.bitWidth
  | .zext | .bitcast | .inttoptr => n
  | .sext => if 2 ^ (w - 1) ≤ n then n + 2 ^ dst.bitWidth - 2 ^ w else n
  | .fptrunc | .fpext => fpConv dst w n

/-- An unsigned comparison. -/
def evalCmp : Pred → Nat → Nat → Bool
  | .eq, a, b => a = b
  | .ne, a, b => a ≠ b
  | .ult, a, b => a < b
  | .ule, a, b => a ≤ b
  | .ugt, a, b => b < a
  | .uge, a, b => b ≤ a

/-- A binary operator on `w`-bit values. -/
def evalBinOp (w : Nat) : BinOp → Nat → Nat → Nat
  | .add, a, b => (a + b) % 2 ^ w
  | .sub, a, b => (a + (2 ^ w - b % 2 ^ w)) % 2 ^ w
  | .mul, a, b => a * b % 2 ^ w
  | .and, a, b => (a &&& b) % 2 ^ w
  | .or, a, b => (a ||| b) % 2 ^ w
  | .xor, a, b => (a ^^^ b) % 2 ^ w

/-- Instructions that act and fall through: neither a `phi` nor a terminator. -/
def Opcode.isPlain : Opcode → Bool
  | .call | .load | .store | .cast _ | .cmp _ | .binop _ => true
  | .phi _ | .br _ | .condBr _ _ | .ret => false

/-- What a run shows: memory accesses and external calls. -/
inductive Event where
  | read (addr size : Nat)
  | write (addr size value : Nat)
  | call (name : String) (args : List (Option Nat))
deriving DecidableEq, Repr

/-- The bytes read by a `__remill_read_memory_*` intrinsic the optimizer lowers to a plain
load. -/
def memReadSize : String → Option Nat
  | "__remill_read_memory_8" => some 1
  | "__remill_read_memory_16" => some 2
  | "__remill_read_memory_32" => some 4
  | "__remill_read_memory_64" => some 8
  | "__remill_read_memory_f32" => some 4
  | "__remill_read_memory_f64" => some 8
  | _ => none

/-- The bytes written by a `__remill_write_memory_*` intrinsic the optimizer lowers to a plain
store. -/
def memWriteSize : String → Option Nat
  | "__remill_write_memory_8" => some 1
  | "__remill_write_memory_16" => some 2
  | "__remill_write_memory_32" => some 4
  | "__remill_write_memory_64" => some 8
  | "__remill_write_memory_f32" => some 4
  | "__remill_write_memory_f64" => some 8
  | _ => none

/-- Where a run takes what it does not compute itself. -/
structure Ctx where
  args : List Val
  choice : Nat → Nat
  ext : List Event → String → List (Option Nat) → Mem → Val × Mem
  addrOf : String → Nat
  consts : Nat → Option Val
  fpConv : Ty → Nat → Nat → Nat
  snapshot : Bool

/-- The values bound to instructions. -/
def Env := Nat → Option Val

/-- The environment with instruction `x` bound to `v`. -/
def Env.set (env : Env) (x : Nat) (v : Val) : Env :=
  fun j => if j = x then some v else env j

/-- The state of a run besides the environment. -/
structure State where
  mem : Mem
  drawn : Nat
  events : List Event
  blocks : List Nat
  threads : List (Mem × Mem)

variable (ctx : Ctx)

/-- The value of an operand that draws no choice; `none` for an instruction not yet run and for
an `undef` that draws. -/
def evalPure (env : Env) : Value → Option Val
  | .inst j => env j
  | .arg n => ctx.args[n]?
  | .func name | .global name => some (.bits 64 (ctx.addrOf name))
  | .cexpr id => ctx.consts id
  | .undef ty => if ty = Ty.memory then some memToken else none
  | .int ty n => some (.bits ty.bitWidth (n % 2 ^ ty.bitWidth))

/-- The value of one operand; an `undef` of a type other than `Memory *` draws the next
choice. -/
def evalOperand (env : Env) (st : State) (v : Value) : Option (Val × State) :=
  match evalPure ctx env v, v with
  | some a, _ => some (a, st)
  | none, .undef ty =>
    some (.bits ty.bitWidth (ctx.choice st.drawn % 2 ^ ty.bitWidth), { st with drawn := st.drawn + 1 })
  | none, _ => none

/-- The values of operands, left to right. -/
def evalOperands (env : Env) (st : State) : List Value → Option (List Val × State)
  | [] => some ([], st)
  | v :: vs => do
    let (a, st) ← evalOperand ctx env st v
    let (as, st) ← evalOperands env st vs
    return (a :: as, st)

/-- A memory intrinsic reading `size` bytes at `a` from the memory state `T`. -/
def readIntrinsic (st : State) (size : Nat) (T : Mem) (a : Nat) : Val × State :=
  let st' := { st with events := st.events ++ [.read a size] }
  if ctx.snapshot then (.bits (8 * size) (T.read a size), { st' with threads := st.threads ++ [(T, st.mem)] })
  else (.bits (8 * size) (st.mem.read a size), st')

/-- A memory intrinsic writing `v` as `size` bytes at `a` into the memory state `T`. -/
def writeIntrinsic (st : State) (size : Nat) (T : Mem) (a v : Nat) : Val × State :=
  let st' := { st with mem := st.mem.write a size v, events := st.events ++ [.write a size v] }
  if ctx.snapshot then (.mem (T.write a size v), { st' with threads := st.threads ++ [(T, st.mem)] })
  else (.mem (st.mem.write a size v), st')

/-- A call to a function the run does not see into. -/
def externalCall (st : State) (name : String) (args : List Val) : Val × State :=
  let erased := args.map Val.erase
  let r := ctx.ext st.events name erased st.mem
  (r.1, { st with mem := r.2, events := st.events ++ [.call name erased] })

/-- A call of `name` on argument values. -/
def execCall (st : State) (name : String) (args : List Val) : Option (Val × State) :=
  match memReadSize name, memWriteSize name with
  | some size, _ =>
    match args with
    | [.mem T, .bits _ a] => some (readIntrinsic ctx st size T a)
    | _ => none
  | none, some size =>
    match args with
    | [.mem T, .bits _ a, .bits _ v] => some (writeIntrinsic ctx st size T a v)
    | _ => none
  | none, none => some (externalCall ctx st name args)

/-- An instruction other than a call on the values of its operands.  A store's type is the type
it stores; its operands are the value and the address. -/
def applyOp (st : State) (op : Opcode) (ty : Ty) (vals : List Val) : Option (Option Val × State) :=
  match op, vals with
  | .cast c, [.bits w n] => some (some (.bits ty.bitWidth (evalCast ctx.fpConv c w ty n)), st)
  | .load, [.bits _ addr] =>
    some (some (.bits ty.bitWidth (st.mem.read addr ty.byteSize)),
      { st with events := st.events ++ [.read addr ty.byteSize] })
  | .cmp p, [.bits _ x, .bits _ y] => some (some (.bits 1 (if evalCmp p x y then 1 else 0)), st)
  | .binop b, [.bits _ x, .bits _ y] =>
    some (some (.bits ty.bitWidth (evalBinOp ty.bitWidth b x y)), st)
  | .store, [.bits _ x, .bits _ addr] =>
    some (none, { st with mem := st.mem.write addr ty.byteSize x,
                          events := st.events ++ [.write addr ty.byteSize x] })
  | _, _ => none

/-- The value an instruction computes, if any, and the state after its effects. -/
def evalInst (env : Env) (st : State) (i : Inst) : Option (Option Val × State) :=
  if i.op = .call then
    match i.operands with
    | .func name :: args => do
      let (vals, st) ← evalOperands ctx env st args
      let (v, st) ← execCall ctx st name vals
      return (some v, st)
    | _ => none
  else do
    let (vals, st) ← evalOperands ctx env st i.operands
    applyOp ctx st i.op i.ty vals

/-- One instruction: its value, checked against its type, is bound to its identity. -/
def execInst (env : Env) (st : State) (i : Inst) : Option (Env × State) := do
  let (r, st) ← evalInst ctx env st i
  match r with
  | none => some (env, st)
  | some v => if v.isMem = (i.ty == Ty.memory) then some (env.set i.id v, st) else none

/-- How a block ends. -/
inductive Exit where
  | jump (label : Nat)
  | ret (v : Option Val)

/-- A terminator. -/
def execTerminator (env : Env) (st : State) (i : Inst) : Option (State × Exit) :=
  match i.op, i.operands with
  | .br dest, _ => some (st, .jump dest)
  | .condBr t f, [c] => do
    let (a, st) ← evalOperand ctx env st c
    match a with
    | .bits _ n => some (st, .jump (if n = 0 then f else t))
    | .mem _ => none
  | .ret, [] => some (st, .ret none)
  | .ret, [v] => do
    let (a, st) ← evalOperand ctx env st v
    return (st, .ret (some a))
  | _, _ => none

/-- The instructions after a block's `phi`s, up to its terminator. -/
def execBody (env : Env) (st : State) : List Inst → Option (Env × State × Exit)
  | [] => none
  | i :: is =>
    if i.op.isPlain then do
      let (env, st) ← execInst ctx env st i
      execBody env st is
    else (execTerminator ctx env st i).map fun r => (env, r)

/-- The incoming value of a `phi` for the predecessor `pred`. -/
def phiIncoming (pred : Nat) : List Nat → List Value → Option Value
  | p :: ps, v :: vs => if p = pred then some v else phiIncoming pred ps vs
  | _, _ => none

/-- The leading `phi`s of a block, evaluated together on entry: their bindings, the state, and
the rest of the block. -/
def evalPhis (pred : Option Nat) (env : Env) (st : State) :
    List Inst → Option (List (Nat × Val) × State × List Inst)
  | [] => some ([], st, [])
  | i :: is =>
    match i.op with
    | .phi preds => do
      let v ← pred.bind fun p => phiIncoming p preds i.operands
      let (a, st) ← evalOperand ctx env st v
      if a.isMem = (i.ty == Ty.memory) then do
        let (vals, st, rest) ← evalPhis pred env st is
        return ((i.id, a) :: vals, st, rest)
      else none
    | _ => some ([], st, i :: is)

/-- One block entered from `pred`. -/
def execBlock (pred : Option Nat) (env : Env) (st : State) (b : Block) :
    Option (Env × State × Exit) := do
  let (vals, st, body) ← evalPhis ctx pred env st b.insts
  execBody ctx (vals.foldl (fun env p => env.set p.1 p.2) env) st body

/-- At most `fuel` blocks of `f` from block `label`: the value returned, or `none` when the
blocks run out. -/
def run (f : Function) :
    Nat → Option Nat → Nat → Env → State → Option (Option (Option Val) × Env × State)
  | 0, _, _, env, st => some (none, env, st)
  | fuel + 1, pred, label, env, st => do
    let b ← f.blocks.find? (·.label == label)
    let (env, st, exit) ← execBlock ctx pred env { st with blocks := st.blocks ++ [label] } b
    match exit with
    | .ret v => some (some v, env, st)
    | .jump l => run f fuel (some label) l env st

/-- Plain instructions one after another. -/
def execInsts (env : Env) (st : State) : List Inst → Option (Env × State)
  | [] => some (env, st)
  | i :: is => do
    let (env, st) ← execInst ctx env st i
    execInsts env st is

/-- The state a function starts in. -/
def State.init (M : Mem) : State :=
  { mem := M, drawn := 0, events := [], blocks := [], threads := [] }

/-- A function run from its entry block with memory `M`. -/
def runFunction (f : Function) (M : Mem) (fuel : Nat) :
    Option (Option (Option Val) × Env × State) :=
  match f.blocks with
  | [] => none
  | b :: _ => run ctx f fuel none b.label (fun _ => none) (State.init M)

end Semantics

section Facts

variable (ctx : Ctx) {env env' : Env} {st st' : State}

@[simp] theorem Env.set_same (env : Env) (x : Nat) (v : Val) :
    env.set x v x = some v := by
  simp [Env.set]

theorem Env.set_ne (env : Env) {x j : Nat} (v : Val) (h : j ≠ x) :
    env.set x v j = env j := by
  simp [Env.set, h]

theorem Val.Agree.refl : ∀ v : Val, v.Agree v
  | .bits _ _ => ⟨rfl, rfl⟩
  | .mem _ => trivial

theorem Val.Agree.isMem_eq : ∀ {v v' : Val}, v.Agree v' → v.isMem = v'.isMem
  | .bits _ _, .bits _ _, _ | .mem _, .mem _, _ => rfl

theorem Val.Agree.erase_eq : ∀ {v v' : Val}, v.Agree v' → v.erase = v'.erase
  | .bits _ _, .bits _ _, h => by simp [erase, h.2]
  | .mem _, .mem _, _ => rfl

/-- Bits agree only with themselves. -/
theorem Val.Agree.eq_of_bits : ∀ {v v' : Val}, v.Agree v' → v.isMem = false → v' = v
  | .bits _ _, .bits _ _, h, _ => by rw [h.1, h.2]

theorem Val.agree_mem_iff {M : Mem} {v : Val} : (Val.mem M).Agree v ↔ ∃ M', v = .mem M' := by
  cases v <;> simp [Val.Agree]

theorem Val.agree_bits_iff {w n : Nat} {v : Val} : (Val.bits w n).Agree v ↔ v = .bits w n := by
  cases v <;> simp [Val.Agree, eq_comm, and_comm]

theorem Val.agree_of_isMem : ∀ {v v' : Val}, v.isMem = true → v'.isMem = true → v.Agree v'
  | .mem _, .mem _, _, _ => trivial

theorem Val.Agree.trans : ∀ {u v w : Val}, u.Agree v → v.Agree w → u.Agree w
  | .bits _ _, .bits _ _, .bits _ _, h₁, h₂ => ⟨h₁.1.trans h₂.1, h₁.2.trans h₂.2⟩
  | .mem _, .mem _, .mem _, _, _ => trivial

/-- Argument lists that agree and hold only bits are equal. -/
theorem eq_of_forall₂_agree {vals vals' : List Val} (h : List.Forall₂ Val.Agree vals vals')
    (hbits : ∀ v ∈ vals, v.isMem = false) : vals' = vals := by
  induction h with
  | nil => rfl
  | cons hv _ ih =>
    simp only [List.mem_cons, forall_eq_or_imp] at hbits
    rw [hv.eq_of_bits hbits.1, ih hbits.2]

theorem map_erase_of_forall₂_agree {vals vals' : List Val} (h : List.Forall₂ Val.Agree vals vals') :
    vals'.map Val.erase = vals.map Val.erase := by
  induction h with
  | nil => rfl
  | cons hv _ ih => simp [ih, hv.erase_eq]

theorem evalPure_set_of_ne {x : Nat} {v : Val} {w : Value} (h : w ≠ .inst x) :
    evalPure ctx (env.set x v) w = evalPure ctx env w := by
  cases w <;> simp_all [evalPure, Env.set_ne]

/-- An operand that names no instruction does not read the environment. -/
theorem evalPure_of_instId_none {w : Value} (h : w.instId? = none) (env₁ env₂ : Env) :
    evalPure ctx env₁ w = evalPure ctx env₂ w := by
  cases w <;> simp_all [evalPure, Value.instId?]

theorem evalOperand_of_evalPure {v : Value} {a : Val} (h : evalPure ctx env v = some a) :
    evalOperand ctx env st v = some (a, st) := by
  simp [evalOperand, h]

theorem evalOperand_of_instId_none {v : Value} (h : v.instId? = none) (env₁ env₂ : Env) :
    evalOperand ctx env₁ st v = evalOperand ctx env₂ st v := by
  unfold evalOperand
  rw [evalPure_of_instId_none ctx h env₁ env₂]

theorem evalOperand_inst (x : Nat) :
    evalOperand ctx env st (.inst x) = (env x).map (·, st) := by
  cases h : env x <;> simp [evalOperand, evalPure, h]

/-- The values an instruction other than a call computes on are bits. -/
theorem applyOp_bits {op : Opcode} {ty : Ty} {vals : List Val} {r : Option Val × State}
    (h : applyOp ctx st op ty vals = some r) : ∀ v ∈ vals, v.isMem = false := by
  unfold applyOp at h
  split at h
  all_goals first | cases h; done | simp [Val.isMem]

variable {ctx}

/-- `execInst` binds the instruction's value, checked against its type, or nothing. -/
theorem execInst_eq_some {i : Inst} {st₁ : State} {env₁ : Env} :
    execInst ctx env st i = some (env₁, st₁) ↔
      (evalInst ctx env st i = some (none, st₁) ∧ env₁ = env) ∨
      ∃ v, evalInst ctx env st i = some (some v, st₁) ∧ v.isMem = (i.ty == Ty.memory) ∧
        env₁ = env.set i.id v := by
  simp only [execInst, Option.bind_eq_bind, Option.bind_eq_some]
  constructor
  · rintro ⟨⟨_ | v, st'⟩, he, hr⟩
    · simp only [Option.some.injEq, Prod.mk.injEq] at hr
      exact .inl ⟨hr.2 ▸ he, hr.1.symm⟩
    · dsimp only at hr
      split_ifs at hr with hv
      simp only [Option.some.injEq, Prod.mk.injEq] at hr
      exact .inr ⟨v, hr.2 ▸ he, hv, hr.1.symm⟩
  · rintro (⟨he, rfl⟩ | ⟨v, he, hv, rfl⟩)
    · exact ⟨_, he, rfl⟩
    · exact ⟨_, he, by simp [hv]⟩

end Facts

end IR
end Mcsema
