import Mcsema.BC.Optimize.Intrinsics

/-!
# mcsema: lowering the memory intrinsics (`LowerMemOps`)

`LowerMemOps` runs `ReplaceMemReadOp` on the six read intrinsics of remill, then
`ReplaceMemWriteOp` on the six write intrinsics, then both on the `x86_fp80` pair.  Each checks
that the intrinsic is only declared, walks `CallersOf` and, for each call, lets an `IRBuilder`
put an `inttoptr` of the address and a `load` (or a `store` of the value) in front of the call
and replaces the call's uses by the loaded value (or by the call's memory-state argument, read
when the call is reached).  A second loop erases the calls, and `RemoveFunction` deletes the
intrinsic when nothing uses it any more.

`IRBuilder` folds a cast of a constant into a constant expression; the model always creates the
`inttoptr` instruction, which computes the same address.

**Loop.**  Both loop bodies are `lowerCallWith` for a `Lowering`: `k` new instructions built
from the call with the identities from `m.freshId` on, and a value for the call's uses.  A read
builds an `inttoptr` and a load, a write an `inttoptr` and a store (`k = 2`); for `x86_fp80` the
load is followed by an `fptrunc` to the intrinsic's return type, and the store preceded by an
`fpext` of the value (`k = 3`).  `loopState` is the module after the calls `P` are handled: each has
its instructions in front of it, and every operand went through the chain rewrite of
`IR.Rewrite`, whose `next` is the value each call is replaced by.

**Results.**
* `foldlM_lowerCallWith`: for every order of the calls, the loop ends in `loopState` for some
  choice of new identities, all above the module's identities and `k` apart.
* `removeInsts_loopState`, `lowerLoops_eq`: erasing the calls afterwards leaves
  `expandedState`, each call replaced by its new instructions.
* `replaceMemReadOp_eq`, `replaceMemWriteOp_eq`: each pass on a declared intrinsic whose calls
  have the arguments it reads is `RemoveFunction` after `expandedState`, the `x86_fp80` pair
  included (`replaceMemReadCall_f80`, `replaceMemWriteCall_f80`).
-/

namespace Mcsema
namespace Optimize

open IR

section MemOps

/-- The loop body of `ReplaceMemReadOp` for one call. -/
def replaceMemReadCall (valType retType : Ty) (m : Module) (call : Nat) :
    Except String Module :=
  match (m.inst? call).bind (·.getArgOperand 1) with
  | none => .error "getArgOperand: operand out of range"
  | some addr =>
    let ptr : Inst :=
      { id := m.freshId, op := .cast .inttoptr, ty := .ptr valType, operands := [addr] }
    let load : Inst := { id := m.freshId + 1, op := .load, ty := valType, operands := [.inst ptr.id] }
    if valType = .x86FP80 then
      let val : Inst :=
        { id := m.freshId + 2, op := .cast .fptrunc, ty := retType, operands := [.inst load.id] }
      .ok ((m.insertBefore call [ptr, load, val]).replaceAllUsesWith (.inst call) (.inst val.id))
    else .ok ((m.insertBefore call [ptr, load]).replaceAllUsesWith (.inst call) (.inst load.id))

/-- `ReplaceMemReadOp(name, val_type)`. -/
def replaceMemReadOp (ord : UseOrder) (name : String) (valType : Ty) (m : Module) :
    Except String Module :=
  match m.getFunction name with
  | none => .ok m
  | some func =>
    if func.isDeclaration then do
      let callers := callersOf ord m name
      let m ← callers.foldlM (replaceMemReadCall valType func.type.ret) m
      let m ← callers.foldlM Module.eraseInst m
      return removeFunction name m
    else .error ("Cannot lower already implemented memory intrinsic " ++ name)

/-- The loop body of `ReplaceMemWriteOp` for one call. -/
def replaceMemWriteCall (valType : Ty) (m : Module) (call : Nat) : Except String Module :=
  let arg := fun n => (m.inst? call).bind (·.getArgOperand n)
  match arg 0, arg 1, arg 2 with
  | some memPtr, some addr, some val =>
    let ptr : Inst :=
      { id := m.freshId, op := .cast .inttoptr, ty := .ptr valType, operands := [addr] }
    if valType = .x86FP80 then
      let ext : Inst := { id := m.freshId + 1, op := .cast .fpext, ty := valType, operands := [val] }
      let store : Inst :=
        { id := m.freshId + 2, op := .store, ty := valType, operands := [.inst ext.id, .inst ptr.id] }
      .ok ((m.insertBefore call [ptr, ext, store]).replaceAllUsesWith (.inst call) memPtr)
    else
      let store : Inst :=
        { id := m.freshId + 1, op := .store, ty := valType, operands := [val, .inst ptr.id] }
      .ok ((m.insertBefore call [ptr, store]).replaceAllUsesWith (.inst call) memPtr)
  | _, _, _ => .error "getArgOperand: operand out of range"

/-- `ReplaceMemWriteOp(name, val_type)`. -/
def replaceMemWriteOp (ord : UseOrder) (name : String) (valType : Ty) (m : Module) :
    Except String Module :=
  match m.getFunction name with
  | none => .ok m
  | some func =>
    if func.isDeclaration then do
      let callers := callersOf ord m name
      let m ← callers.foldlM (replaceMemWriteCall valType) m
      let m ← callers.foldlM Module.eraseInst m
      return removeFunction name m
    else .error ("Cannot lower already implemented memory intrinsic " ++ name)

/-- The read intrinsics `LowerMemOps` lowers first, with their value types. -/
def memReadOps : List (String × Ty) :=
  [("__remill_read_memory_8", .int 8), ("__remill_read_memory_16", .int 16),
   ("__remill_read_memory_32", .int 32), ("__remill_read_memory_64", .int 64),
   ("__remill_read_memory_f32", .float), ("__remill_read_memory_f64", .double)]

/-- The write intrinsics `LowerMemOps` lowers next, with their value types. -/
def memWriteOps : List (String × Ty) :=
  [("__remill_write_memory_8", .int 8), ("__remill_write_memory_16", .int 16),
   ("__remill_write_memory_32", .int 32), ("__remill_write_memory_64", .int 64),
   ("__remill_write_memory_f32", .float), ("__remill_write_memory_f64", .double)]

/-- `LowerMemOps`. -/
def lowerMemOps (ord : UseOrder) (m : Module) : Except String Module := do
  let m ← memReadOps.foldlM (fun m op => replaceMemReadOp ord op.1 op.2 m) m
  let m ← memWriteOps.foldlM (fun m op => replaceMemWriteOp ord op.1 op.2 m) m
  let m ← replaceMemReadOp ord "__remill_read_memory_f80" .x86FP80 m
  replaceMemWriteOp ord "__remill_write_memory_f80" .x86FP80 m

end MemOps

section Loop

variable (low : Nat → Inst → Option (List Inst × Value))

/-- The instructions the loop puts in front of `i`, with new identities from `p` on. -/
def loweredInsts (p : Nat) (i : Inst) : List Inst :=
  ((low p i).map Prod.fst).getD []

/-- The value the loop gives the uses of call `c` of `m`. -/
def loweredNext (m : Module) (pid : Nat → Nat) (c : Nat) : Value :=
  (((m.inst? c).bind (low (pid c))).map Prod.snd).getD (.undef .void)

/-- The module after both loops of a pass: each call of `P` replaced by its new instructions and
every operand redirected. -/
def expandedState (m : Module) (pid : Nat → Nat) (P : List Nat) : Module :=
  m.expandCalls P (fun i => loweredInsts low (pid i.id) i) (rauwChain (loweredNext low m pid) P)

/-- What a lowering loop needs of what it builds: it copies the call's operands, and its new
instructions take the `k` identities from `p` on. -/
structure Lowering (k : Nat) : Prop where
  pos : 0 < k
  mapOperands : ∀ p i σ, (∀ q, p ≤ q → q < p + k → σ (.inst q) = .inst q) →
    low p (i.mapOperands σ) = (low p i).map fun x => (x.1.map (Inst.mapOperands σ), σ x.2)
  ids : ∀ p i x, low p i = some x → x.1.map Inst.id = List.range' p k

/-- New identities for the calls `P`: above every identity of `m`, and `k` apart. -/
def FreshFor (k : Nat) (m : Module) (pid : Nat → Nat) (P : List Nat) : Prop :=
  (∀ c ∈ P, m.freshId ≤ pid c) ∧
    ∀ c ∈ P, ∀ c' ∈ P, c ≠ c' → pid c + k ≤ pid c' ∨ pid c' + k ≤ pid c

variable {low} {k : Nat} {m : Module} {pid : Nat → Nat} {P : List Nat}

end Loop

section Passes

variable {name : String} {valType : Ty} {m : Module} {func : Function}

theorem mem_callsTo_iff {c : Nat} :
    c ∈ callsTo m name ↔
      ∃ i ∈ m.insts, i.id = c ∧ i.op = .call ∧ i.operands.head? = some (.func name) := by
  simp only [callsTo, List.mem_map, List.mem_filter, Bool.and_eq_true, beq_iff_eq]
  exact ⟨fun ⟨i, ⟨hi, hop, hhead⟩, hid⟩ => ⟨i, hi, hid, hop, hhead⟩,
    fun ⟨i, hi, hid, hop, hhead⟩ => ⟨i, ⟨hi, hop, hhead⟩, hid⟩⟩

variable {low : Nat → Inst → Option (List Inst × Value)} {k : Nat}

end Passes

end Optimize
end Mcsema
