import Mathlib.Data.List.Count
import Mathlib.Algebra.Group.Nat.Basic
import Mathlib.Algebra.Group.Int

/-!
# mcsema: the LLVM module rewritten by the optimizer

This module fixes the part of LLVM's in-memory IR that `mcsema/BC/Optimize.cpp` reads and
rewrites.

**Values and uses.**  An operand slot (an LLVM `Use`) points at a `Value`: the result of an
instruction, a function argument, a function or a global variable (as constants), a pooled
constant expression, an `undef` constant or an integer constant.  The users of a value are the
instructions, global initializers and pooled constants holding it in an operand slot, and
`getNumUses` counts slots.

**Instructions.**  An instruction carries an identifier standing for its address, an opcode,
its result type and its operands.  A call holds its callee in slot `0` and its arguments after
it, so `getArgOperand i` is slot `i + 1`.

**Rewrites.**  `replaceAllUsesWith` rewrites every slot of the module, `eraseInst` removes an
instruction and fails when it is no longer in its function (LLVM leaves that undefined), and
`insertBefore` is `IRBuilder` insertion in front of an instruction.
-/

namespace Mcsema
namespace IR

/-- First-class LLVM types, as far as the optimizer inspects them. -/
inductive Ty where
  | int (bits : Nat)
  | float
  | double
  | x86FP80
  | named (name : String)
  | ptr (pointee : Ty)
  | void
deriving DecidableEq, Repr

/-- remill's `Memory *`. -/
def Ty.memory : Ty := .ptr (.named "struct.Memory")

/-- remill's `State *`. -/
def Ty.state : Ty := .ptr (.named "struct.State")

/-- `llvm::FunctionType`. -/
structure FunctionType where
  ret : Ty
  params : List Ty
deriving DecidableEq, Repr

/-- `FunctionType::getParamType`, `none` where LLVM asserts `i < getNumParams()`. -/
def FunctionType.getParamType (t : FunctionType) (i : Nat) : Option Ty :=
  t.params[i]?

/-- What an operand slot points at. -/
inductive Value where
  | inst (id : Nat)
  | arg (index : Nat)
  | func (name : String)
  | global (name : String)
  | cexpr (id : Nat)
  | undef (ty : Ty)
  | int (ty : Ty) (n : Nat)
deriving DecidableEq, Repr

/-- Cast instructions (`llvm::CastInst`). -/
inductive CastOp where
  | trunc | zext | sext | bitcast | inttoptr | ptrtoint | fptrunc | fpext
deriving DecidableEq, Repr

/-- Integer comparison predicates (`llvm::CmpInst`). -/
inductive Pred where
  | eq | ne | ult | ule | ugt | uge
deriving DecidableEq, Repr

/-- Binary operators. -/
inductive BinOp where
  | add | sub | mul | and | or | xor
deriving DecidableEq, Repr

/-- Opcodes; a `phi` lists its incoming blocks in the order of its operands. -/
inductive Opcode where
  | call
  | load
  | store
  | cast (op : CastOp)
  | cmp (pred : Pred)
  | binop (op : BinOp)
  | phi (preds : List Nat)
  | br (dest : Nat)
  | condBr (ifTrue ifFalse : Nat)
  | ret
deriving DecidableEq, Repr

/-- The opcodes `isa<CmpInst>` or `isa<CastInst>` accepts. -/
def Opcode.isCmpOrCast : Opcode → Bool
  | .cmp _ | .cast _ => true
  | _ => false

/-- An instruction: identity, opcode, result type, operand slots. -/
structure Inst where
  id : Nat
  op : Opcode
  ty : Ty
  operands : List Value
deriving DecidableEq, Repr

/-- `CallInst::getArgOperand`. -/
def Inst.getArgOperand (i : Inst) (n : Nat) : Option Value :=
  i.operands[n + 1]?

/-- The instruction with every operand sent through `σ`. -/
def Inst.mapOperands (σ : Value → Value) (i : Inst) : Inst :=
  { i with operands := i.operands.map σ }

@[simp] theorem Inst.mapOperands_id (σ : Value → Value) (i : Inst) :
    (i.mapOperands σ).id = i.id := rfl

@[simp] theorem Inst.mapOperands_op (σ : Value → Value) (i : Inst) :
    (i.mapOperands σ).op = i.op := rfl

@[simp] theorem Inst.mapOperands_ty (σ : Value → Value) (i : Inst) :
    (i.mapOperands σ).ty = i.ty := rfl

@[simp] theorem Inst.mapOperands_operands (σ : Value → Value) (i : Inst) :
    (i.mapOperands σ).operands = i.operands.map σ := rfl

@[simp] theorem Inst.getArgOperand_mapOperands (σ : Value → Value) (i : Inst) (n : Nat) :
    (i.mapOperands σ).getArgOperand n = (i.getArgOperand n).map σ := by
  simp [Inst.getArgOperand, Inst.mapOperands]

/-- A basic block. -/
structure Block where
  label : Nat
  insts : List Inst
deriving DecidableEq, Repr

/-- `GlobalValue::LinkageTypes`. -/
inductive Linkage where
  | external | externalWeak | internal | appending | weak
deriving DecidableEq, Repr

/-- Function attributes the optimizer sets or clears. -/
inductive Attr where
  | noInline | inlineHint | alwaysInline
deriving DecidableEq, Repr

/-- A function; it is a declaration when it has no blocks. -/
structure Function where
  name : String
  type : FunctionType
  linkage : Linkage
  attrs : List Attr
  blocks : List Block
deriving DecidableEq, Repr

/-- `Function::isDeclaration`. -/
def Function.isDeclaration (f : Function) : Bool :=
  f.blocks.isEmpty

/-- The instructions of a function, in layout order. -/
def Function.insts (f : Function) : List Inst :=
  f.blocks.flatMap Block.insts

/-- A global variable with its optional initializer. -/
structure GlobalVariable where
  name : String
  linkage : Linkage
  init : Option Value
deriving DecidableEq, Repr

/-- Pooled constants: pointer casts and arrays such as `llvm.used`'s initializer. -/
inductive ConstKind where
  | bitcast (ty : Ty)
  | array
deriving DecidableEq, Repr

/-- A pooled constant and its operand slots. -/
structure Constant where
  id : Nat
  kind : ConstKind
  operands : List Value
deriving DecidableEq, Repr

/-- An LLVM module. -/
structure Module where
  functions : List Function
  globals : List GlobalVariable
  constants : List Constant
deriving DecidableEq, Repr

namespace Module

variable (m : Module)

/-- `Module::getFunction`. -/
def getFunction (name : String) : Option Function :=
  m.functions.find? (·.name == name)

/-- `Module::getGlobalVariable`. -/
def getGlobalVariable (name : String) : Option GlobalVariable :=
  m.globals.find? (·.name == name)

/-- Every instruction of every function, in layout order. -/
def insts : List Inst :=
  m.functions.flatMap Function.insts

/-- The instruction with identity `id`. -/
def inst? (id : Nat) : Option Inst :=
  m.insts.find? (·.id == id)

/-- Every operand slot of the module. -/
def operands : List Value :=
  m.insts.flatMap Inst.operands ++ m.globals.flatMap (fun g => g.init.toList) ++
    m.constants.flatMap Constant.operands

/-- `Value::getNumUses`. -/
def getNumUses (v : Value) : Nat :=
  m.operands.count v

/-- `Value::hasNUsesOrMore`. -/
def hasNUsesOrMore (v : Value) (n : Nat) : Bool :=
  n ≤ m.getNumUses v

/-- The instructions among the users of `v`, in layout order. -/
def instUsers (v : Value) : List Nat :=
  (m.insts.filter fun i => v ∈ i.operands).map Inst.id

/-- Rewrite the instruction list of every block. -/
def mapInsts (f : List Inst → List Inst) : Module :=
  { m with functions := m.functions.map fun fn =>
      { fn with blocks := fn.blocks.map fun b => { b with insts := f b.insts } } }

end Module

/-- One slot after `replaceAllUsesWith old new`. -/
def Value.replace (old new v : Value) : Value :=
  if v = old then new else v

/-- `Value::replaceAllUsesWith`: every slot holding `old` now holds `new`. -/
def Module.replaceAllUsesWith (m : Module) (old new : Value) : Module :=
  { functions := (m.mapInsts (List.map fun i =>
      { i with operands := i.operands.map (Value.replace old new) })).functions
    globals := m.globals.map fun g => { g with init := g.init.map (Value.replace old new) }
    constants := m.constants.map fun c =>
      { c with operands := c.operands.map (Value.replace old new) } }

/-- Remove instruction `id` from its block. -/
def Module.removeInst (m : Module) (id : Nat) : Module :=
  m.mapInsts (List.filter fun i => i.id != id)

/-- `Instruction::eraseFromParent`; erasing an instruction that is gone is an error. -/
def Module.eraseInst (m : Module) (id : Nat) : Except String Module :=
  if m.insts.any (·.id == id) then .ok (m.removeInst id)
  else .error "eraseFromParent: instruction is no longer in its function"

/-- `IRBuilder<> ir(pos)` followed by the creation of `new`: `new` goes in front of the
instruction `pos` (in front of each instruction carrying that identity, of which there is one
when identities are unique). -/
def Module.insertBefore (m : Module) (pos : Nat) (new : List Inst) : Module :=
  m.mapInsts fun is => is.flatMap fun i => if i.id = pos then new ++ [i] else [i]

/-- The instruction an operand names, if it names one. -/
def Value.instId? : Value → Option Nat
  | .inst id => some id
  | _ => none

/-- An identity that no instruction of the module carries and no operand names: the address of
a new allocation. -/
def Module.freshId (m : Module) : Nat :=
  (m.insts.map Inst.id ++ m.operands.filterMap Value.instId?).foldr max 0 + 1

namespace Module

/-- `GlobalValue::setLinkage` on the function `name`. -/
def setFunctionLinkage (m : Module) (name : String) (l : Linkage) : Module :=
  { m with functions := m.functions.map fun f => if f.name = name then { f with linkage := l } else f }

/-- `removeFromParent` followed by `delete` on the function `name`. -/
def eraseFunction (m : Module) (name : String) : Module :=
  { m with functions := m.functions.filter fun f => f.name != name }

/-- `GlobalValue::setLinkage` on the global variable `name`. -/
def setGlobalLinkage (m : Module) (name : String) (l : Linkage) : Module :=
  { m with globals := m.globals.map fun g => if g.name = name then { g with linkage := l } else g }

/-- `GlobalVariable::eraseFromParent`; its initializer constant stays pooled, as in LLVM. -/
def eraseGlobal (m : Module) (name : String) : Module :=
  { m with globals := m.globals.filter fun g => g.name != name }

/-- Some operand slot of the module names a function or global that is no longer in it. -/
def Dangling (m : Module) : Prop :=
  ∃ v ∈ m.operands, (∃ n, v = .global n ∧ m.getGlobalVariable n = none) ∨
    (∃ n, v = .func n ∧ m.getFunction n = none)

end Module

end IR
end Mcsema

namespace Mcsema
namespace IR
namespace Module

variable (m : Module)

@[simp] theorem operands_setGlobalLinkage (name : String) (l : Linkage) :
    (m.setGlobalLinkage name l).operands = m.operands := by
  simp only [operands, setGlobalLinkage, insts, List.flatMap_map]
  congr 2
  congr 1
  funext g
  split <;> rfl

@[simp] theorem getNumUses_setGlobalLinkage (name : String) (l : Linkage) (v : Value) :
    (m.setGlobalLinkage name l).getNumUses v = m.getNumUses v := by
  simp [getNumUses]

end Module
end IR
end Mcsema
