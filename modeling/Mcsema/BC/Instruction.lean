import Mathlib.Data.List.Basic
import Mathlib.Algebra.Group.Nat.Basic
import Mathlib.Algebra.Group.Int

/-!
# mcsema: the cross-reference state machine of the instruction lifter

`InstructionLifter::LiftIntoBlock` reads the memory, immediate and displacement
cross-references of the current CFG instruction, clears three `used` flags, and hands the
instruction to remill's generic lifter.  remill calls back `LiftImmediateOperand` and
`LiftAddressOperand`, in an order and a number of times that only the architecture semantics
decides; mcsema answers with a cross-reference where one fits and sets its flag.  After a
successful lift, every present reference whose flag is still clear is reported.

**Model.**  remill's side of one lift is a `RemillLift`: the callbacks, each naming an operand
of the instruction by index, and the final status.  A lifted value is a term: a resolved
cross-reference, a truncation, an addition, or remill's generic lifting of an operand.  A
resolved cross-reference records, as ghost data the lifter never inspects, the CFG instruction
and the field it was resolved from, so that "the reference of the current instruction" can be
stated.  `LiftAddressOperand` writes the displacement of its operand, as the C++ does through
`auto &mem = op.addr`.

**Results.**
* `liftAddressOperand_history_free`: the address lifted for an operand is a function of that
  operand and of the instruction's memory and displacement references alone.
* `liftIntoBlock_exact`, `liftSession_exact`: over every callback sequence, and over every
  session of successive lifts, the immediate reference goes to the first immediate callback
  only, the unused-reference diagnostics are exactly the present references no callback
  returned or added, and no callback returns a reference of another CFG instruction.
* `liftIntoBlock_error_iff`: when remill's callbacks name operands of the instruction, the lift
  fails only on the `CHECK` of `LiftImmediateOperand`, and exactly when the CFG instruction has
  an immediate reference and the first immediate callback asks for an argument wider than a
  pointer.
* `liftIntoBlock_operands`: whatever the order and number of remill's callbacks, the lift hands
  back each operand unchanged but for its displacement, cleared exactly when an address callback
  names the operand and `LiftAddressOperand` takes a reference for the displacement.
-/

namespace Mcsema
namespace Lift

/-- `NativeInstructionXref`: a target address and a mask, `0` when the CFG gives none. -/
structure NativeInstructionXref where
  targetEa : Nat
  mask : Nat
deriving DecidableEq, Repr

/-- The cross-reference fields of a CFG instruction (`ctx.cfg_inst`). -/
structure NativeInstruction where
  mem : Option NativeInstructionXref
  imm : Option NativeInstructionXref
  disp : Option NativeInstructionXref
deriving DecidableEq, Repr

/-- The three reference fields of the lifter. -/
inductive XrefKind where
  | mem | imm | disp
deriving DecidableEq, Repr

/-- `remill::Operand::Address`. -/
structure Address where
  segmentReg : String
  baseReg : String
  indexReg : String
  scale : Int
  displacement : Int
  isControlFlowTarget : Bool
deriving DecidableEq, Repr

/-- `remill::Operand`: its size, immediate value and address. -/
structure Operand where
  size : Nat
  immVal : Nat
  addr : Address
deriving DecidableEq, Repr

/-- `remill::Instruction`: its address and operands. -/
structure Instruction where
  pc : Nat
  operands : List Operand
deriving DecidableEq, Repr

/-- IR values handed back to remill. -/
inductive LiftedValue where
  /-- `LiftXrefInCode(ea)`, resolved from field `kind` of the CFG instruction `src`. -/
  | xref (src : NativeInstruction) (kind : XrefKind) (ea : Nat)
  /-- `ir.CreateTrunc(v, arg_type)`. -/
  | trunc (v : LiftedValue) (bits : Nat)
  /-- `ir.CreateAdd(a, b)`. -/
  | add (a b : LiftedValue)
  /-- remill's generic `LiftImmediateOperand`. -/
  | imm (argBits : Nat) (op : Operand)
  /-- remill's generic `LiftAddressOperand`. -/
  | addr (argBits : Nat) (a : Address)
deriving DecidableEq, Repr

/-- A resolved cross-reference of field `kind` of `src` occurs in the value. -/
def LiftedValue.Mentions (src : Option NativeInstruction) (kind : XrefKind) :
    LiftedValue → Prop
  | .xref s k _ => src = some s ∧ k = kind
  | .trunc v _ => v.Mentions src kind
  | .add a b => a.Mentions src kind ∨ b.Mentions src kind
  | .imm _ _ => False
  | .addr _ _ => False

/-- Every resolved cross-reference in the value comes from the CFG instruction `src`. -/
def LiftedValue.From (src : Option NativeInstruction) : LiftedValue → Prop
  | .xref s _ _ => src = some s
  | .trunc v _ => v.From src
  | .add a b => a.From src ∧ b.From src
  | .imm _ _ => True
  | .addr _ _ => True

/-- Bit width of a value's type; `LiftXrefInCode` yields an address-sized integer. -/
def LiftedValue.bits (addressSize : Nat) : LiftedValue → Nat
  | .trunc _ b => b
  | _ => addressSize

/-- Diagnostics the lifter logs. -/
inductive Diagnostic where
  /-- The reference of field `kind`, targeting `targetEa`, was never used. -/
  | unusedReference (kind : XrefKind) (targetEa : Nat)
  | missedXrefCandidate (op : Operand)
  | absoluteMisdecoded (op : Operand) (pc : Nat)
deriving DecidableEq, Repr

/-- `remill::LiftStatus`. -/
inductive LiftStatus where
  | invalidInstruction | unsupportedInstruction | lifterError | liftedInstruction
deriving DecidableEq, Repr

/-- The translation context: the CFG instruction, the architecture's address size, and
`ctx.cfg_module->TryGetSegment(ea) != nullptr`. -/
structure LiftContext where
  cfgInst : Option NativeInstruction
  addressSize : Nat
  hasSegment : Nat → Bool

/-- The fields of `mcsema::InstructionLifter` that carry state between callbacks. -/
structure InstructionLifter where
  memRef : Option LiftedValue
  immRef : Option LiftedValue
  dispRef : Option LiftedValue
  memRefUsed : Bool
  immRefUsed : Bool
  dispRefUsed : Bool
deriving DecidableEq, Repr

/-- The cross-reference field `kind` of a CFG instruction. -/
def NativeInstruction.field (c : NativeInstruction) : XrefKind → Option NativeInstructionXref
  | .mem => c.mem
  | .imm => c.imm
  | .disp => c.disp

namespace InstructionLifter

/-- The reference field `kind`. -/
def ref (st : InstructionLifter) : XrefKind → Option LiftedValue
  | .mem => st.memRef
  | .imm => st.immRef
  | .disp => st.dispRef

/-- The `used` flag of field `kind`. -/
def used (st : InstructionLifter) : XrefKind → Bool
  | .mem => st.memRefUsed
  | .imm => st.immRefUsed
  | .disp => st.dispRefUsed

end InstructionLifter

/-- `InstructionLifter::GetAddress`: the target, masked when the CFG gives a mask. -/
def getAddress (src : NativeInstruction) (kind : XrefKind) :
    Option NativeInstructionXref → Option LiftedValue
  | none => none
  | some x => some (.xref src kind (if x.mask ≠ 0 then x.targetEa &&& x.mask else x.targetEa))

/-- The prologue of `LiftIntoBlock`: the three references of `ctx.cfg_inst`, flags cleared. -/
def InstructionLifter.enter : Option NativeInstruction → InstructionLifter
  | some c =>
    { memRef := getAddress c .mem c.mem, immRef := getAddress c .imm c.imm,
      dispRef := getAddress c .disp c.disp,
      memRefUsed := false, immRefUsed := false, dispRefUsed := false }
  | none =>
    { memRef := none, immRef := none, dispRef := none,
      memRefUsed := false, immRefUsed := false, dispRefUsed := false }

/-- The text of the `CHECK` in `LiftImmediateOperand`. -/
def immediateTooWideMessage : String :=
  "Immediate operand size is wider than the architecture pointer size"

/-- `InstructionLifter::LiftImmediateOperand`. -/
def liftImmediateOperand (ctx : LiftContext) (st : InstructionLifter) (argBits : Nat)
    (op : Operand) : Except String (LiftedValue × InstructionLifter × List Diagnostic) :=
  match st.immRef, st.immRefUsed with
  | some r, false =>
    if argBits ≤ ctx.addressSize then
      let r' := if argBits ≠ r.bits ctx.addressSize ∧ argBits < ctx.addressSize
        then .trunc r argBits else r
      .ok (r', { st with immRefUsed := true, immRef := some r' }, [])
    else .error immediateTooWideMessage
  | _, _ =>
    let warn :=
      if op.size = ctx.addressSize ∧ 4096 ≤ op.immVal ∧ ctx.hasSegment op.immVal = true
      then [Diagnostic.missedXrefCandidate op] else []
    .ok (.imm argBits op, st, warn)

/-- The body shared by the two absolute-operand branches of `LiftAddressOperand`: the
memory reference, else the displacement reference, else remill's lifting. -/
def liftAbsoluteAddress (st : InstructionLifter) (argBits : Nat) (a : Address) :
    LiftedValue × InstructionLifter :=
  match st.memRef, st.dispRef with
  | some r, _ => (r, { st with memRefUsed := true })
  | none, some r => (r, { st with dispRefUsed := true })
  | none, none => (.addr argBits a, st)

/-- `static_cast<uint64_t>(op.addr.displacement)`. -/
def Address.dispBits (a : Address) : Nat :=
  (a.displacement % 2 ^ 64).toNat

/-- `InstructionLifter::LiftAddressOperand`; it also returns the operand, whose displacement
it zeroes on the two displacement paths. -/
def liftAddressOperand (ctx : LiftContext) (st : InstructionLifter) (argBits pc : Nat)
    (op : Operand) : LiftedValue × InstructionLifter × Operand × List Diagnostic :=
  let mem := op.addr
  let zeroed : Operand := { op with addr := { mem with displacement := 0 } }
  if mem.isControlFlowTarget then (.addr argBits mem, st, op, [])
  else if (mem.baseReg = "" ∧ mem.indexReg = "") ∨ (mem.baseReg = "PC" ∧ mem.indexReg = "") then
    ((liftAbsoluteAddress st argBits mem).1, (liftAbsoluteAddress st argBits mem).2, op, [])
  else if (mem.baseReg = "" ∧ mem.indexReg = "") ∨
      (mem.baseReg = "NEXT_PC" ∧ mem.indexReg = "") then
    ((liftAbsoluteAddress st argBits mem).1, (liftAbsoluteAddress st argBits mem).2, op, [])
  else
    match st.dispRef, st.memRef with
    | some r, _ => (.add (.addr argBits zeroed.addr) r, { st with dispRefUsed := true }, zeroed, [])
    | none, some r =>
      if some mem.dispBits = (ctx.cfgInst.bind (·.mem)).map (·.targetEa) then
        (.add (.addr argBits zeroed.addr) r, { st with memRefUsed := true }, zeroed,
          [.absoluteMisdecoded op pc])
      else (.addr argBits mem, st, op, [])
    | none, none => (.addr argBits mem, st, op, [])

/-- A callback of remill's generic lifter, naming an operand of the instruction by index and
the bit width of the semantics argument it fills. -/
inductive Callback where
  | immediate (argBits : Nat) (index : Nat)
  | address (argBits : Nat) (index : Nat)
deriving DecidableEq, Repr

/-- What remill's `LiftIntoBlock` does between mcsema's prologue and epilogue. -/
structure RemillLift where
  callbacks : List Callback
  status : LiftStatus
deriving DecidableEq, Repr

/-- Answer one callback; an address callback writes back its operand. -/
def Callback.run (ctx : LiftContext) (pc : Nat) (st : InstructionLifter) (ops : List Operand) :
    Callback → Except String (LiftedValue × InstructionLifter × List Operand × List Diagnostic)
  | .immediate b i =>
    match ops[i]? with
    | some op => (liftImmediateOperand ctx st b op).map fun (v, st, d) => (v, st, ops, d)
    | none => .error "operand index out of range"
  | .address b i =>
    match ops[i]? with
    | some op =>
      let r := liftAddressOperand ctx st b pc op
      .ok (r.1, r.2.1, ops.set i r.2.2.1, r.2.2.2)
    | none => .error "operand index out of range"

/-- Answer a sequence of callbacks, threading the lifter and the operands. -/
def runCallbacks (ctx : LiftContext) (pc : Nat) :
    List Callback → InstructionLifter → List Operand →
      Except String (List LiftedValue × InstructionLifter × List Operand × List Diagnostic)
  | [], st, ops => .ok ([], st, ops, [])
  | c :: cs, st, ops => do
    let (v, st, ops, d) ← c.run ctx pc st ops
    let (vs, st, ops, ds) ← runCallbacks ctx pc cs st ops
    return (v :: vs, st, ops, d ++ ds)

/-- The epilogue of a successful lift: one diagnostic per present, unused reference, in the
order memory, immediate, displacement. -/
def unusedReferences (cfg : Option NativeInstruction) (st : InstructionLifter) :
    List Diagnostic :=
  [XrefKind.mem, .imm, .disp].filterMap fun k =>
    if (st.ref k).isSome && !st.used k then
      some (.unusedReference k (((cfg.bind (·.field k)).map (·.targetEa)).getD 0))
    else none

/-- What one `LiftIntoBlock` produced: each callback with its answer, the log, the status. -/
structure LiftRecord where
  results : List (Callback × LiftedValue)
  diagnostics : List Diagnostic
  status : LiftStatus
deriving DecidableEq, Repr

/-- `InstructionLifter::LiftIntoBlock`. -/
def liftIntoBlock (ctx : LiftContext) (inst : Instruction) (r : RemillLift) :
    Except String (LiftRecord × InstructionLifter × Instruction) := do
  let (vs, st, ops, ds) ←
    runCallbacks ctx inst.pc r.callbacks (InstructionLifter.enter ctx.cfgInst) inst.operands
  let ds := if r.status = .liftedInstruction then ds ++ unusedReferences ctx.cfgInst st else ds
  return ({ results := r.callbacks.zip vs, diagnostics := ds, status := r.status }, st,
    { inst with operands := ops })

/-- Successive `LiftIntoBlock` calls on one lifter. -/
def liftSession : List (LiftContext × Instruction × RemillLift) → Except String (List LiftRecord)
  | [] => .ok []
  | (ctx, inst, r) :: rest => do
    let (rec, _, _) ← liftIntoBlock ctx inst r
    let recs ← liftSession rest
    return rec :: recs

section Exact

open InstructionLifter

/-- The lifter inside a `LiftIntoBlock` for CFG instruction `cfg`: memory and displacement
references as the prologue set them, and the immediate one too unless it was used and
truncated. -/
structure Inside (cfg : Option NativeInstruction) (st : InstructionLifter) : Prop where
  mem : st.memRef = (enter cfg).memRef
  disp : st.dispRef = (enter cfg).dispRef
  imm : st.immRef = (enter cfg).immRef ∨
    st.immRefUsed = true ∧ ∃ r b, (enter cfg).immRef = some r ∧ st.immRef = some (.trunc r b)

theorem getAddress_eq_some
    {c : NativeInstruction} {kind : XrefKind} {x : Option NativeInstructionXref}
    {r : LiftedValue}
    (h : getAddress c kind x = some r) :
    ∃ ea, r = .xref c kind ea := by
  cases x with
  | none => simp [getAddress] at h
  | some x => exact ⟨_, (Option.some.inj h).symm⟩

/-- A reference set by the prologue is resolved from field `kind` of the CFG instruction. -/
theorem enter_ref_eq
    {cfg : Option NativeInstruction} {kind : XrefKind} {r : LiftedValue}
    (h : (enter cfg).ref kind = some r) :
    ∃ c, cfg = some c ∧ ∃ ea, r = .xref c kind ea := by
  cases cfg with
  | none => cases kind <;> simp [enter, ref] at h
  | some c => cases kind <;> exact ⟨c, rfl, getAddress_eq_some h⟩

theorem mentions_of_enter
    {cfg : Option NativeInstruction} {kind kind' : XrefKind} {r : LiftedValue}
    (h : (enter cfg).ref kind = some r) :
    r.Mentions cfg kind' ↔ kind' = kind := by
  obtain ⟨c, rfl, ea, rfl⟩ := enter_ref_eq h
  simp [LiftedValue.Mentions, eq_comm]

theorem from_of_enter
    {cfg : Option NativeInstruction} {kind : XrefKind} {r : LiftedValue}
    (h : (enter cfg).ref kind = some r) :
    r.From cfg := by
  obtain ⟨c, rfl, ea, rfl⟩ := enter_ref_eq h
  simp [LiftedValue.From]

/-- A reference-free answer: remill's own lifting. -/
def LiftedValue.IsGeneric : LiftedValue → Prop
  | .imm _ _ => True
  | .addr _ _ => True
  | _ => False

theorem LiftedValue.IsGeneric.not_mentions {v : LiftedValue} (h : v.IsGeneric)
    (src : Option NativeInstruction) (kind : XrefKind) : ¬ v.Mentions src kind := by
  cases v with
  | imm _ _ | addr _ _ => exact id
  | _ => exact h.elim

/-- An answer built from the reference of field `kind` of `cfg` and nothing else. -/
structure IsRef (cfg : Option NativeInstruction) (kind : XrefKind) (v : LiftedValue) : Prop where
  mentions : ∀ k, v.Mentions cfg k ↔ k = kind
  from_ : v.From cfg

theorem isRef_of_enter
    {cfg : Option NativeInstruction} (kind : XrefKind) {r : LiftedValue}
    (h : (enter cfg).ref kind = some r) :
    IsRef cfg kind r :=
  ⟨fun _ => mentions_of_enter h, from_of_enter h⟩

theorem IsRef.add
    {cfg : Option NativeInstruction} {kind : XrefKind} {r : LiftedValue}
    (h : IsRef cfg kind r) (b : Nat) (a : Address) :
    IsRef cfg kind (.add (.addr b a) r) :=
  ⟨fun k => by simpa [LiftedValue.Mentions] using h.mentions k,
    by simpa [LiftedValue.From] using h.from_⟩

/-- One callback's effect on the flags, said once: a reference-free answer leaves them, the
reference of field `kind` sets that one flag. -/
def FlagStep (cfg : Option NativeInstruction) (st : InstructionLifter) (v : LiftedValue)
    (st' : InstructionLifter) : Prop :=
  ((∀ k, ¬ v.Mentions cfg k) ∧ v.From cfg ∧ ∀ k, st'.used k = st.used k) ∨
    ∃ kind, IsRef cfg kind v ∧ st'.used kind = true ∧ ∀ k, k ≠ kind → st'.used k = st.used k

theorem FlagStep.used_iff
    {cfg : Option NativeInstruction} {st st' : InstructionLifter} {v : LiftedValue}
    (h : FlagStep cfg st v st') (k : XrefKind) :
    st'.used k = true ↔ st.used k = true ∨ v.Mentions cfg k := by
  rcases h with ⟨hm, -, hu⟩ | ⟨kind, hr, hk, hu⟩
  · simp [hu, hm]
  · by_cases hkk : k = kind
    · subst hkk; simp [hk, hr.mentions]
    · simp [hu k hkk, hr.mentions, hkk]

theorem FlagStep.from_
    {cfg : Option NativeInstruction} {st st' : InstructionLifter} {v : LiftedValue}
    (h : FlagStep cfg st v st') :
    v.From cfg := by
  rcases h with ⟨-, hf, -⟩ | ⟨_, hr, -⟩
  · exact hf
  · exact hr.from_

theorem flagStep_generic
    (cfg : Option NativeInstruction) (st : InstructionLifter) (v : LiftedValue)
    (hv : v.IsGeneric) :
    FlagStep cfg st v st := by
  refine .inl ⟨fun k => ?_, ?_, fun _ => rfl⟩ <;> cases v <;>
    simp_all [LiftedValue.IsGeneric, LiftedValue.Mentions, LiftedValue.From]

theorem flagStep_mem
    {cfg : Option NativeInstruction} (st : InstructionLifter) {v : LiftedValue}
    (hv : IsRef cfg .mem v) :
    FlagStep cfg st v { st with memRefUsed := true } :=
  .inr ⟨.mem, hv, rfl, fun k hk => by cases k <;> simp_all [used]⟩

theorem flagStep_disp
    {cfg : Option NativeInstruction} (st : InstructionLifter) {v : LiftedValue}
    (hv : IsRef cfg .disp v) :
    FlagStep cfg st v { st with dispRefUsed := true } :=
  .inr ⟨.disp, hv, rfl, fun k hk => by cases k <;> simp_all [used]⟩

theorem IsRef.trunc
    {cfg : Option NativeInstruction} {kind : XrefKind} {r : LiftedValue}
    (h : IsRef cfg kind r) (b : Nat) :
    IsRef cfg kind (.trunc r b) :=
  ⟨fun k => by simpa [LiftedValue.Mentions] using h.mentions k,
    by simpa [LiftedValue.From] using h.from_⟩

theorem Inside.isRef_mem
    {cfg : Option NativeInstruction} {st : InstructionLifter} {r : LiftedValue}
    (hin : Inside cfg st) (h : st.memRef = some r) :
    IsRef cfg .mem r :=
  isRef_of_enter .mem (hin.mem.symm.trans h)

theorem Inside.isRef_disp
    {cfg : Option NativeInstruction} {st : InstructionLifter} {r : LiftedValue}
    (hin : Inside cfg st) (h : st.dispRef = some r) :
    IsRef cfg .disp r :=
  isRef_of_enter .disp (hin.disp.symm.trans h)

theorem IsRef.not_mentions
    {cfg : Option NativeInstruction} {kind k : XrefKind} {v : LiftedValue}
    (h : IsRef cfg kind v) (hk : k ≠ kind) :
    ¬ v.Mentions cfg k :=
  fun hm => hk ((h.mentions k).1 hm)

theorem liftAbsoluteAddress_step
    {cfg : Option NativeInstruction} {st : InstructionLifter}
    (hin : Inside cfg st)
    (b : Nat) (a : Address) :
    FlagStep cfg st (liftAbsoluteAddress st b a).1 (liftAbsoluteAddress st b a).2 ∧
      Inside cfg (liftAbsoluteAddress st b a).2 ∧
      (liftAbsoluteAddress st b a).2.immRefUsed = st.immRefUsed ∧
      ¬ (liftAbsoluteAddress st b a).1.Mentions cfg .imm := by
  unfold liftAbsoluteAddress
  split
  · next r _ hm =>
      exact ⟨flagStep_mem st (hin.isRef_mem hm), ⟨hin.mem, hin.disp, hin.imm⟩, rfl,
        (hin.isRef_mem hm).not_mentions (by decide)⟩
  · next r _ hd =>
      exact ⟨flagStep_disp st (hin.isRef_disp hd), ⟨hin.mem, hin.disp, hin.imm⟩, rfl,
        (hin.isRef_disp hd).not_mentions (by decide)⟩
  · exact ⟨flagStep_generic _ _ _ trivial, hin, rfl, by simp [LiftedValue.Mentions]⟩

/-- `LiftAddressOperand` answers with a reference-free value or with the memory or the
displacement reference, and sets only that reference's flag. -/
theorem liftAddressOperand_step
    {ctx : LiftContext} {st : InstructionLifter}
    (hin : Inside ctx.cfgInst st)
    (b pc : Nat) (op : Operand) :
    FlagStep ctx.cfgInst st (liftAddressOperand ctx st b pc op).1
        (liftAddressOperand ctx st b pc op).2.1 ∧
      Inside ctx.cfgInst (liftAddressOperand ctx st b pc op).2.1 ∧
      (liftAddressOperand ctx st b pc op).2.1.immRefUsed = st.immRefUsed ∧
      ¬ (liftAddressOperand ctx st b pc op).1.Mentions ctx.cfgInst .imm ∧
      ∀ k ea, Diagnostic.unusedReference k ea ∉ (liftAddressOperand ctx st b pc op).2.2.2 := by
  have gen : ¬ (LiftedValue.addr b op.addr).Mentions ctx.cfgInst .imm := by
    simp [LiftedValue.Mentions]
  have genStep := flagStep_generic ctx.cfgInst st (.addr b op.addr) trivial
  generalize hr : liftAddressOperand ctx st b pc op = r
  unfold liftAddressOperand at hr
  dsimp only at hr
  split_ifs at hr
  · subst hr; exact ⟨genStep, hin, rfl, gen, by simp⟩
  · subst hr; obtain ⟨h1, h2, h3, h4⟩ := liftAbsoluteAddress_step hin b op.addr
    exact ⟨h1, h2, h3, h4, by simp⟩
  · subst hr; obtain ⟨h1, h2, h3, h4⟩ := liftAbsoluteAddress_step hin b op.addr
    exact ⟨h1, h2, h3, h4, by simp⟩
  all_goals split at hr
  all_goals first
    | subst hr; exact ⟨genStep, hin, rfl, gen, by simp⟩
    | next r _ hd =>
        subst hr
        exact ⟨flagStep_disp st ((hin.isRef_disp hd).add _ _), ⟨hin.mem, hin.disp, hin.imm⟩,
          rfl, ((hin.isRef_disp hd).add _ _).not_mentions (by decide), by simp⟩
    | next r _ hm =>
        subst hr
        exact ⟨flagStep_mem st ((hin.isRef_mem hm).add _ _), ⟨hin.mem, hin.disp, hin.imm⟩,
          rfl, ((hin.isRef_mem hm).add _ _).not_mentions (by decide), by simp⟩

/-- The immediate reference an unused-flag state holds is the prologue's. -/
theorem Inside.immRef_of_unused
    {cfg : Option NativeInstruction} {st : InstructionLifter}
    (hin : Inside cfg st) (hu : st.immRefUsed = false) :
    st.immRef = (enter cfg).immRef := by
  rcases hin.imm with h | ⟨h, -⟩
  · exact h
  · simp [h] at hu

/-- `LiftImmediateOperand` answers with the immediate reference (possibly truncated) and sets
its flag, or with remill's lifting and changes nothing. -/
theorem liftImmediateOperand_step
    {ctx : LiftContext} {st st' : InstructionLifter} {b : Nat} {op : Operand}
    {v : LiftedValue} {d : List Diagnostic}
    (hin : Inside ctx.cfgInst st)
    (h : liftImmediateOperand ctx st b op = .ok (v, st', d)) :
    FlagStep ctx.cfgInst st v st' ∧ Inside ctx.cfgInst st' ∧
      st'.memRef = st.memRef ∧ st'.dispRef = st.dispRef ∧
      ∀ k ea, Diagnostic.unusedReference k ea ∉ d := by
  unfold liftImmediateOperand at h
  split at h
  · next r hr hu =>
      by_cases hle : b ≤ ctx.addressSize
      · simp only [hle, if_true, Except.ok.injEq, Prod.mk.injEq] at h
        obtain ⟨rfl, rfl, rfl⟩ := h
        have hr' : (enter ctx.cfgInst).immRef = some r := (hin.immRef_of_unused hu) ▸ hr
        have href : IsRef ctx.cfgInst .imm r := isRef_of_enter .imm hr'
        refine ⟨.inr ⟨.imm, ?_, rfl, fun k hk => by cases k <;> simp_all [used]⟩,
          ⟨hin.mem, hin.disp, ?_⟩, rfl, rfl, by simp⟩
        · split_ifs
          · exact href.trunc b
          · exact href
        · split_ifs
          · exact .inr ⟨rfl, r, b, hr', rfl⟩
          · exact .inl hr'.symm
      · simp [hle] at h
  · simp only [Except.ok.injEq, Prod.mk.injEq] at h
    obtain ⟨rfl, rfl, rfl⟩ := h
    exact ⟨flagStep_generic _ _ _ trivial, hin, rfl, rfl, by split_ifs <;> simp⟩

/-- One callback of either kind answers as `FlagStep` says and keeps the lifter inside. -/
theorem Callback.run_step
    {ctx : LiftContext} {pc : Nat} {st st' : InstructionLifter} {ops ops' : List Operand}
    {c : Callback} {v : LiftedValue} {d : List Diagnostic}
    (hin : Inside ctx.cfgInst st)
    (h : c.run ctx pc st ops = .ok (v, st', ops', d)) :
    FlagStep ctx.cfgInst st v st' ∧ Inside ctx.cfgInst st' ∧
      ∀ k ea, Diagnostic.unusedReference k ea ∉ d := by
  cases c with
  | immediate b i =>
      simp only [Callback.run] at h
      split at h
      · next op _ =>
          cases himm : liftImmediateOperand ctx st b op with
          | error e => simp [himm, Except.map] at h
          | ok r =>
              obtain ⟨v', st'', d'⟩ := r
              simp only [himm, Except.map, Except.ok.injEq, Prod.mk.injEq] at h
              obtain ⟨rfl, rfl, -, rfl⟩ := h
              obtain ⟨h1, h2, -, -, h5⟩ := liftImmediateOperand_step hin himm
              exact ⟨h1, h2, h5⟩
      · cases h
  | address b i =>
      simp only [Callback.run] at h
      split at h
      · next op _ =>
          simp only [Except.ok.injEq, Prod.mk.injEq] at h
          obtain ⟨rfl, rfl, -, rfl⟩ := h
          obtain ⟨h1, h2, -, -, h5⟩ := liftAddressOperand_step hin b pc op
          exact ⟨h1, h2, h5⟩
      · cases h

theorem runCallbacks_cons_eq_ok
    {ctx : LiftContext} {pc : Nat} {c : Callback} {cs : List Callback}
    {st st' : InstructionLifter} {ops ops' : List Operand} {vs : List LiftedValue}
    {ds : List Diagnostic}
    (h : runCallbacks ctx pc (c :: cs) st ops = .ok (vs, st', ops', ds)) :
    ∃ v st₁ ops₁ d vs' ds', c.run ctx pc st ops = .ok (v, st₁, ops₁, d) ∧
      runCallbacks ctx pc cs st₁ ops₁ = .ok (vs', st', ops', ds') ∧
      vs = v :: vs' ∧ ds = d ++ ds' := by
  simp only [runCallbacks, bind, Except.bind] at h
  split at h
  · cases h
  · next r hr =>
      obtain ⟨v, st₁, ops₁, d⟩ := r
      split at h
      · cases h
      · next r' hr' =>
          obtain ⟨vs', st'', ops'', ds'⟩ := r'
          simp only [pure, Except.pure, Except.ok.injEq, Prod.mk.injEq] at h
          obtain ⟨rfl, rfl, rfl, rfl⟩ := h
          exact ⟨v, st₁, ops₁, d, vs', ds', hr, hr', rfl, rfl⟩

/-- Over a whole callback sequence: every answer comes from the current CFG instruction, a
flag is set exactly when some answer holds its reference, and no callback logs an
unused-reference diagnostic. -/
theorem runCallbacks_step
    {ctx : LiftContext} {pc : Nat} (cs : List Callback) :
    ∀ {st st' : InstructionLifter} {ops ops' : List Operand} {vs : List LiftedValue}
      {ds : List Diagnostic},
      Inside ctx.cfgInst st → runCallbacks ctx pc cs st ops = .ok (vs, st', ops', ds) →
      Inside ctx.cfgInst st' ∧ vs.length = cs.length ∧ (∀ v ∈ vs, v.From ctx.cfgInst) ∧
        (∀ k, st'.used k = true ↔ st.used k = true ∨ ∃ v ∈ vs, v.Mentions ctx.cfgInst k) ∧
        ∀ k ea, Diagnostic.unusedReference k ea ∉ ds := by
  induction cs with
  | nil =>
      intro st st' ops ops' vs ds hin h
      simp only [runCallbacks, Except.ok.injEq, Prod.mk.injEq] at h
      obtain ⟨rfl, rfl, rfl, rfl⟩ := h
      simpa using hin
  | cons c cs ih =>
      intro st st' ops ops' vs ds hin h
      obtain ⟨v, st₁, ops₁, d, vs', ds', hc, hcs, rfl, rfl⟩ := runCallbacks_cons_eq_ok h
      obtain ⟨hf, hin₁, hd⟩ := c.run_step hin hc
      obtain ⟨hin', hlen, hfrom, hused, hds⟩ := ih hin₁ hcs
      refine ⟨hin', by simp [hlen], ?_, fun k => ?_, ?_⟩
      · simpa [hf.from_] using hfrom
      · rw [hused, hf.used_iff]
        simp [or_assoc]
      · simp_all

/-- A reference is present after the prologue exactly when the CFG instruction has it. -/
theorem enter_ref_isSome
    (cfg : Option NativeInstruction) (kind : XrefKind) :
    ((enter cfg).ref kind).isSome ↔ ∃ c, cfg = some c ∧ (c.field kind).isSome := by
  have hget : ∀ c k (x : Option NativeInstructionXref), (getAddress c k x).isSome = x.isSome :=
    fun _ _ x => by cases x <;> rfl
  cases cfg <;> cases kind <;> simp [enter, ref, NativeInstruction.field, hget]

/-- With the immediate reference absent or used, `LiftImmediateOperand` is remill's. -/
theorem liftImmediateOperand_done
    (ctx : LiftContext) {st : InstructionLifter}
    (b : Nat) (op : Operand)
    (h : st.immRef = none ∨ st.immRefUsed = true) :
    ∃ d, liftImmediateOperand ctx st b op = .ok (.imm b op, st, d) := by
  unfold liftImmediateOperand
  split
  · next r hr hu => rcases h with h | h <;> simp_all
  · exact ⟨_, rfl⟩

/-- With the immediate reference present and unused, `LiftImmediateOperand` answers with it. -/
theorem liftImmediateOperand_first
    {ctx : LiftContext} {st st' : InstructionLifter} {b : Nat} {op : Operand}
    {v : LiftedValue} {d : List Diagnostic}
    (hin : Inside ctx.cfgInst st) (hu : st.immRefUsed = false) (hs : st.immRef.isSome)
    (h : liftImmediateOperand ctx st b op = .ok (v, st', d)) :
    v.Mentions ctx.cfgInst .imm ∧ st'.immRefUsed = true := by
  obtain ⟨r, hr⟩ := Option.isSome_iff_exists.1 hs
  have href : IsRef ctx.cfgInst .imm r :=
    isRef_of_enter .imm ((hin.immRef_of_unused hu).symm.trans hr)
  unfold liftImmediateOperand at h
  rw [hr, hu] at h
  by_cases hle : b ≤ ctx.addressSize
  · simp only [hle, if_true, Except.ok.injEq, Prod.mk.injEq] at h
    obtain ⟨rfl, rfl, rfl⟩ := h
    refine ⟨?_, rfl⟩
    split_ifs
    · exact ((href.trunc b).mentions .imm).2 rfl
    · exact (href.mentions .imm).2 rfl
  · simp [hle] at h

/-- `Callback.isImmediate`: a call of `LiftImmediateOperand`. -/
def Callback.isImmediate : Callback → Bool
  | .immediate _ _ => true
  | .address _ _ => false

/-- The answers to immediate callbacks, in order. -/
def immediateAnswers (answers : List (Callback × LiftedValue)) : List (Callback × LiftedValue) :=
  answers.filter (·.1.isImmediate)

/-- Clause (i): the immediate reference goes into the first immediate callback when present,
into no other callback, and every later immediate callback gets remill's lifting. -/
structure ImmediateOnce (cfg : Option NativeInstruction)
    (answers : List (Callback × LiftedValue)) : Prop where
  later_generic : ∀ p ∈ (immediateAnswers answers).tail, p.2.IsGeneric
  only_first : ∀ p ∈ answers, p.2.Mentions cfg .imm → (immediateAnswers answers).head? = some p
  first : ∀ p, (immediateAnswers answers).head? = some p →
    (p.2.Mentions cfg .imm ↔ ∃ c, cfg = some c ∧ c.imm.isSome)

/-- The immediate reference is spent: absent from the start, or used. -/
def ImmDone (cfg : Option NativeInstruction) (st : InstructionLifter) : Prop :=
  (enter cfg).immRef = none ∨ st.immRefUsed = true

theorem Inside.immRef_of_done
    {cfg : Option NativeInstruction} {st : InstructionLifter}
    (hin : Inside cfg st) (h : ImmDone cfg st) :
    st.immRef = none ∨ st.immRefUsed = true := by
  cases hu : st.immRefUsed
  · rcases h with h | h
    · exact .inl ((hin.immRef_of_unused hu).trans h)
    · simp_all
  · exact .inr rfl

/-- An address callback neither holds nor spends the immediate reference. -/
theorem Callback.run_address
    {ctx : LiftContext} {pc b i : Nat} {st st' : InstructionLifter} {ops ops' : List Operand}
    {v : LiftedValue} {d : List Diagnostic}
    (hin : Inside ctx.cfgInst st)
    (h : (Callback.address b i).run ctx pc st ops = .ok (v, st', ops', d)) :
    ¬ v.Mentions ctx.cfgInst .imm ∧ st'.immRefUsed = st.immRefUsed := by
  simp only [Callback.run] at h
  split at h
  · next op _ =>
      simp only [Except.ok.injEq, Prod.mk.injEq] at h
      obtain ⟨rfl, rfl, -, rfl⟩ := h
      obtain ⟨-, -, hu, hn, -⟩ := liftAddressOperand_step hin b pc op
      exact ⟨hn, hu⟩
  · cases h

/-- An immediate callback with the immediate reference spent gets remill's lifting. -/
theorem Callback.run_immediate_done
    {ctx : LiftContext} {pc b i : Nat} {st st' : InstructionLifter} {ops ops' : List Operand}
    {v : LiftedValue} {d : List Diagnostic}
    (hin : Inside ctx.cfgInst st) (hdone : ImmDone ctx.cfgInst st)
    (h : (Callback.immediate b i).run ctx pc st ops = .ok (v, st', ops', d)) :
    v.IsGeneric ∧ st' = st := by
  simp only [Callback.run] at h
  split at h
  · next op _ =>
      obtain ⟨d', hd⟩ := liftImmediateOperand_done ctx b op (hin.immRef_of_done hdone)
      simp only [hd, Except.map, Except.ok.injEq, Prod.mk.injEq] at h
      obtain ⟨rfl, rfl, -, rfl⟩ := h
      exact ⟨trivial, rfl⟩
  · cases h

/-- The first immediate callback holds the immediate reference exactly when the CFG
instruction has one, and spends it. -/
theorem Callback.run_immediate_first
    {ctx : LiftContext} {pc b i : Nat} {st st' : InstructionLifter} {ops ops' : List Operand}
    {v : LiftedValue} {d : List Diagnostic}
    (hin : Inside ctx.cfgInst st) (hu : st.immRefUsed = false)
    (h : (Callback.immediate b i).run ctx pc st ops = .ok (v, st', ops', d)) :
    (v.Mentions ctx.cfgInst .imm ↔ ((enter ctx.cfgInst).ref .imm).isSome) ∧
      ImmDone ctx.cfgInst st' := by
  cases hs : st.immRef with
  | none =>
      have he : (enter ctx.cfgInst).immRef = none := (hin.immRef_of_unused hu).symm.trans hs
      obtain ⟨hg, rfl⟩ := Callback.run_immediate_done hin (.inl he) h
      refine ⟨?_, .inl he⟩
      cases v <;> simp_all [LiftedValue.IsGeneric, LiftedValue.Mentions, ref]
  | some r =>
      have he : (enter ctx.cfgInst).immRef = some r := (hin.immRef_of_unused hu).symm.trans hs
      simp only [Callback.run] at h
      split at h
      · next op _ =>
          cases himm : liftImmediateOperand ctx st b op with
          | error e => simp [himm, Except.map] at h
          | ok res =>
              obtain ⟨v', st'', d'⟩ := res
              simp only [himm, Except.map, Except.ok.injEq, Prod.mk.injEq] at h
              obtain ⟨rfl, rfl, -, rfl⟩ := h
              obtain ⟨hm, hu'⟩ := liftImmediateOperand_first hin hu (by simp [hs]) himm
              exact ⟨by simp [hm, ref, he], .inr hu'⟩
      · cases h

/-- Once the immediate reference is spent, no later callback holds it and every later
immediate callback gets remill's lifting. -/
theorem runCallbacks_imm_done
    {ctx : LiftContext} {pc : Nat} (cs : List Callback) :
    ∀ {st st' : InstructionLifter} {ops ops' : List Operand} {vs : List LiftedValue}
      {ds : List Diagnostic},
      Inside ctx.cfgInst st → ImmDone ctx.cfgInst st →
      runCallbacks ctx pc cs st ops = .ok (vs, st', ops', ds) →
      ∀ p ∈ cs.zip vs, (p.1.isImmediate → p.2.IsGeneric) ∧ ¬ p.2.Mentions ctx.cfgInst .imm := by
  induction cs with
  | nil => intro _ _ _ _ vs _ _ _ _; simp
  | cons c cs ih =>
      intro st st' ops ops' vs ds hin hdone h
      obtain ⟨v, st₁, ops₁, d, vs', ds', hc, hcs, rfl, rfl⟩ := runCallbacks_cons_eq_ok h
      have hin₁ := (c.run_step hin hc).2.1
      have head : ImmDone ctx.cfgInst st₁ ∧ (c.isImmediate → v.IsGeneric) ∧
          ¬ v.Mentions ctx.cfgInst .imm := by
        cases c with
        | immediate b i =>
            obtain ⟨hg, rfl⟩ := Callback.run_immediate_done hin hdone hc
            exact ⟨hdone, fun _ => hg, hg.not_mentions _ _⟩
        | address b i =>
            obtain ⟨hn, hu⟩ := Callback.run_address hin hc
            exact ⟨by simpa [ImmDone, hu] using hdone, by simp [Callback.isImmediate], hn⟩
      intro p hp
      simp only [List.zip_cons_cons, List.mem_cons] at hp
      rcases hp with rfl | hp
      · exact head.2
      · exact ih hin₁ head.1 hcs p hp

/-- Clause (i) over a whole callback sequence that starts with the immediate reference
unused. -/
theorem runCallbacks_immediateOnce
    {ctx : LiftContext} {pc : Nat} (cs : List Callback) :
    ∀ {st st' : InstructionLifter} {ops ops' : List Operand} {vs : List LiftedValue}
      {ds : List Diagnostic},
      Inside ctx.cfgInst st → st.immRefUsed = false →
      runCallbacks ctx pc cs st ops = .ok (vs, st', ops', ds) →
      ImmediateOnce ctx.cfgInst (cs.zip vs) := by
  induction cs with
  | nil =>
      intro _ _ _ _ vs _ _ _ _
      exact ⟨by simp [immediateAnswers], by simp, by simp [immediateAnswers]⟩
  | cons c cs ih =>
      intro st st' ops ops' vs ds hin hu h
      obtain ⟨v, st₁, ops₁, d, vs', ds', hc, hcs, rfl, rfl⟩ := runCallbacks_cons_eq_ok h
      have hin₁ := (c.run_step hin hc).2.1
      rw [List.zip_cons_cons]
      cases c with
      | address b i =>
          obtain ⟨hn, hu'⟩ := Callback.run_address hin hc
          have ih' := ih hin₁ (hu'.trans hu) hcs
          have hfilt : immediateAnswers ((Callback.address b i, v) :: cs.zip vs') =
              immediateAnswers (cs.zip vs') := by
            simp [immediateAnswers, Callback.isImmediate]
          refine ⟨hfilt ▸ ih'.later_generic, fun p hp hm => ?_, hfilt ▸ ih'.first⟩
          rw [hfilt]
          rcases List.mem_cons.1 hp with rfl | hp
          · exact absurd hm hn
          · exact ih'.only_first p hp hm
      | immediate b i =>
          obtain ⟨hiff, hdone⟩ := Callback.run_immediate_first hin hu hc
          have rest := runCallbacks_imm_done cs hin₁ hdone hcs
          have hfilt : immediateAnswers ((Callback.immediate b i, v) :: cs.zip vs') =
              (Callback.immediate b i, v) :: immediateAnswers (cs.zip vs') := by
            simp [immediateAnswers, Callback.isImmediate]
          refine ⟨fun p hp => ?_, fun p hp hm => ?_, fun p hp => ?_⟩
          · rw [hfilt, List.tail_cons, immediateAnswers, List.mem_filter] at hp
            exact (rest p hp.1).1 hp.2
          · rw [hfilt]
            rcases List.mem_cons.1 hp with rfl | hp
            · rfl
            · exact absurd hm (rest p hp).2
          · rw [hfilt] at hp
            cases hp
            rw [hiff, enter_ref_isSome]
            rfl

theorem Inside.ref_isSome
    {cfg : Option NativeInstruction} {st : InstructionLifter}
    (hin : Inside cfg st) (kind : XrefKind) :
    (st.ref kind).isSome = ((enter cfg).ref kind).isSome := by
  cases kind
  · simp [ref, hin.mem]
  · rcases hin.imm with h | ⟨-, r, b, h, h'⟩ <;> simp [ref, *]
  · simp [ref, hin.disp]

theorem unusedReferences_mem
    (cfg : Option NativeInstruction) (st : InstructionLifter) (kind : XrefKind) :
    (∃ ea, Diagnostic.unusedReference kind ea ∈ unusedReferences cfg st) ↔
      (st.ref kind).isSome ∧ st.used kind = false := by
  cases kind <;> simp [unusedReferences, List.mem_filterMap]

/-- The three clauses of the cross-reference contract for one lift of `cfg`. -/
structure LiftExact (cfg : Option NativeInstruction) (rec : LiftRecord) : Prop where
  immediate : ImmediateOnce cfg rec.results
  unused : rec.status = .liftedInstruction → ∀ kind,
    (∃ ea, Diagnostic.unusedReference kind ea ∈ rec.diagnostics) ↔
      (∃ c, cfg = some c ∧ (c.field kind).isSome) ∧
        ¬ ∃ p ∈ rec.results, p.2.Mentions cfg kind
  current : ∀ p ∈ rec.results, p.2.From cfg

theorem enter_used
    (cfg : Option NativeInstruction) (kind : XrefKind) :
    (enter cfg).used kind = false := by
  cases cfg <;> cases kind <;> rfl

/-- One `LiftIntoBlock` meets the three clauses. -/
theorem liftIntoBlock_exact
    (ctx : LiftContext) (inst : Instruction) (r : RemillLift)
    {rec : LiftRecord} {st : InstructionLifter} {inst' : Instruction}
    (h : liftIntoBlock ctx inst r = .ok (rec, st, inst')) :
    LiftExact ctx.cfgInst rec := by
  unfold liftIntoBlock at h
  cases hrun : runCallbacks ctx inst.pc r.callbacks (enter ctx.cfgInst) inst.operands with
  | error e => simp [hrun, bind, Except.bind] at h
  | ok res =>
      obtain ⟨vs, st₁, ops, ds⟩ := res
      simp only [hrun, bind, Except.bind, pure, Except.pure, Except.ok.injEq,
        Prod.mk.injEq] at h
      obtain ⟨rfl, -, -⟩ := h
      have hin₀ : Inside ctx.cfgInst (enter ctx.cfgInst) := ⟨rfl, rfl, .inl rfl⟩
      obtain ⟨hin, hlen, hfrom, hused, hds⟩ := runCallbacks_step r.callbacks hin₀ hrun
      have hsnd : (r.callbacks.zip vs).map Prod.snd = vs := List.map_snd_zip _ _ (by omega)
      have hex : ∀ (P : LiftedValue → Prop),
          (∃ p ∈ r.callbacks.zip vs, P p.2) ↔ ∃ v ∈ vs, P v := by
        intro P
        constructor
        · rintro ⟨p, hp, hP⟩
          exact ⟨p.2, hsnd ▸ List.mem_map_of_mem _ hp, hP⟩
        · rintro ⟨v, hv, hP⟩
          rw [← hsnd, List.mem_map] at hv
          obtain ⟨p, hp, rfl⟩ := hv
          exact ⟨p, hp, hP⟩
      refine ⟨runCallbacks_immediateOnce r.callbacks hin₀ (enter_used _ .imm) hrun,
        fun hs kind => ?_, fun p hp => hfrom _ (hsnd ▸ List.mem_map_of_mem Prod.snd hp)⟩
      have hlog : (∃ ea, Diagnostic.unusedReference kind ea ∈
            ds ++ unusedReferences ctx.cfgInst st₁) ↔
          ∃ ea, Diagnostic.unusedReference kind ea ∈ unusedReferences ctx.cfgInst st₁ := by
        simp only [List.mem_append]
        exact ⟨fun ⟨ea, h⟩ => ⟨ea, h.resolve_left (hds _ _)⟩, fun ⟨ea, h⟩ => ⟨ea, .inr h⟩⟩
      have hu := hused kind
      simp only [enter_used, Bool.false_eq_true, false_or] at hu
      simp only at hs
      simp only [hs, if_true]
      rw [hlog, unusedReferences_mem, hin.ref_isSome, enter_ref_isSome, hex, Bool.eq_false_iff,
        ne_eq, hu]

/-- Every lift of a session, whatever the lifts before it, meets the three clauses for its
own CFG instruction. -/
theorem liftSession_exact :
    ∀ (session : List (LiftContext × Instruction × RemillLift)) {recs : List LiftRecord},
      liftSession session = .ok recs →
      List.Forall₂ (fun call rec => LiftExact call.1.cfgInst rec) session recs
  | [], recs, h => by
      simp only [liftSession, Except.ok.injEq] at h
      subst h
      exact .nil
  | (ctx, inst, r) :: rest, recs, h => by
      simp only [liftSession, bind, Except.bind] at h
      split at h
      · cases h
      · next res hres =>
          split at h
          · cases h
          · next recs' hrest =>
              simp only [pure, Except.pure, Except.ok.injEq] at h
              subst h
              exact .cons (liftIntoBlock_exact ctx inst r hres) (liftSession_exact rest hrest)

/-- The end-to-end scenario: a `MemoryOperand` reference to `0x4010` and one absolute memory
operand that remill lifts. -/
def memoryOperandLift : List (LiftContext × Instruction × RemillLift) :=
  [ ({ cfgInst := some ⟨some ⟨0x4010, 0⟩, none, none⟩, addressSize := 64,
       hasSegment := fun _ => false },
     { pc := 0x1000,
       operands := [⟨64, 0, ⟨"", "", "", 0, 0x4010, false⟩⟩] },
     { callbacks := [.address 64 0], status := .liftedInstruction }) ]

/-- The scenario's lift answers with the resolved `0x4010`, logs nothing, and meets the three
clauses. -/
theorem memoryOperandLift_exact :
    liftSession memoryOperandLift =
        .ok [{ results := [(.address 64 0, .xref ⟨some ⟨0x4010, 0⟩, none, none⟩ .mem 0x4010)],
               diagnostics := [], status := .liftedInstruction }] ∧
      List.Forall₂ (fun call rec => LiftExact call.1.cfgInst rec) memoryOperandLift
        [{ results := [(.address 64 0, .xref ⟨some ⟨0x4010, 0⟩, none, none⟩ .mem 0x4010)],
           diagnostics := [], status := .liftedInstruction }] :=
  ⟨rfl, liftSession_exact _ rfl⟩

end Exact

section Address

open InstructionLifter

/-- The address `LiftAddressOperand` returns reads the lifter only through its memory and
displacement references, and the operand only through its address. -/
theorem liftAddressOperand_value_congr
    (ctx : LiftContext) {st st' : InstructionLifter}
    (hm : st.memRef = st'.memRef) (hd : st.dispRef = st'.dispRef)
    (b pc : Nat) {op op' : Operand} (h : op.addr = op'.addr) :
    (liftAddressOperand ctx st b pc op).1 = (liftAddressOperand ctx st' b pc op').1 := by
  unfold liftAddressOperand liftAbsoluteAddress
  rw [hm, hd, h]
  dsimp only
  repeat' split
  all_goals rfl

/-- Inside a lift, the address `LiftAddressOperand` returns is the one it returns right
after the prologue. -/
theorem Inside.liftAddressOperand_value
    {ctx : LiftContext} {st : InstructionLifter}
    (hin : Inside ctx.cfgInst st) (b pc : Nat) (op : Operand) :
    (liftAddressOperand ctx st b pc op).1 =
      (liftAddressOperand ctx (enter ctx.cfgInst) b pc op).1 :=
  liftAddressOperand_value_congr ctx hin.mem hin.disp b pc rfl

/-- After any callback history of a lift, the address lifted for an operand is the one the
prologue state gives, and two distinct operands with equal address fields get the same address
whichever of them is lifted first. -/
theorem liftAddressOperand_history_free
    (ctx : LiftContext) (pc b : Nat) (history : List Callback)
    {ops ops₁ : List Operand} {st : InstructionLifter} {vs : List LiftedValue}
    {ds : List Diagnostic}
    (h : runCallbacks ctx pc history (enter ctx.cfgInst) ops = .ok (vs, st, ops₁, ds)) :
    (∀ op, (liftAddressOperand ctx st b pc op).1 =
        (liftAddressOperand ctx (enter ctx.cfgInst) b pc op).1) ∧
      ∀ i j (opi opj : Operand), i ≠ j → ops₁[i]? = some opi → ops₁[j]? = some opj →
        opi.addr = opj.addr →
        (runCallbacks ctx pc [.address b i, .address b j] st ops₁).map (·.1) =
            .ok [(liftAddressOperand ctx (enter ctx.cfgInst) b pc opi).1,
              (liftAddressOperand ctx (enter ctx.cfgInst) b pc opi).1] ∧
          (runCallbacks ctx pc [.address b j, .address b i] st ops₁).map (·.1) =
            .ok [(liftAddressOperand ctx (enter ctx.cfgInst) b pc opi).1,
              (liftAddressOperand ctx (enter ctx.cfgInst) b pc opi).1] := by
  have hin := (runCallbacks_step history ⟨rfl, rfl, .inl rfl⟩ h).1
  have pair : ∀ i j (opi opj : Operand), i ≠ j → ops₁[i]? = some opi → ops₁[j]? = some opj →
      (runCallbacks ctx pc [.address b i, .address b j] st ops₁).map (·.1) =
        .ok [(liftAddressOperand ctx (enter ctx.cfgInst) b pc opi).1,
          (liftAddressOperand ctx (enter ctx.cfgInst) b pc opj).1] := by
    intro i j opi opj hij hi hj
    have hin₂ := (liftAddressOperand_step hin b pc opi).2.1
    simp only [runCallbacks, Callback.run, hi, List.getElem?_set_ne hij, hj, bind,
      Except.bind, pure, Except.pure, Except.map]
    rw [hin.liftAddressOperand_value, hin₂.liftAddressOperand_value]
  refine ⟨hin.liftAddressOperand_value b pc, fun i j opi opj hij hi hj ha => ⟨?_, ?_⟩⟩
  · rw [pair i j opi opj hij hi hj, liftAddressOperand_value_congr ctx rfl rfl b pc ha]
  · rw [pair j i opj opi (Ne.symm hij) hj hi, liftAddressOperand_value_congr ctx rfl rfl b pc ha]

/-- A read-modify-write instruction: destination and source are the same `[RAX + 0x601000]`,
and the CFG gives a displacement reference to `0x601000`. -/
def rmwContext : LiftContext :=
  { cfgInst := some ⟨none, none, some ⟨0x601000, 0⟩⟩, addressSize := 64,
    hasSegment := fun _ => false }

/-- The two operands of the read-modify-write instruction. -/
def rmwOperands : List Operand :=
  [⟨64, 0, ⟨"", "RAX", "", 1, 0x601000, false⟩⟩, ⟨64, 0, ⟨"", "RAX", "", 1, 0x601000, false⟩⟩]

/-- Destination and source get the same address, in either order: `RAX` with the displacement
zeroed, plus the displacement reference to `0x601000`. -/
theorem rmwOperands_same_address :
    (runCallbacks rmwContext 0 [.address 64 0, .address 64 1] (enter rmwContext.cfgInst)
        rmwOperands).map (·.1) =
      .ok [.add (.addr 64 ⟨"", "RAX", "", 1, 0, false⟩)
              (.xref ⟨none, none, some ⟨0x601000, 0⟩⟩ .disp 0x601000),
            .add (.addr 64 ⟨"", "RAX", "", 1, 0, false⟩)
              (.xref ⟨none, none, some ⟨0x601000, 0⟩⟩ .disp 0x601000)] ∧
    (runCallbacks rmwContext 0 [.address 64 1, .address 64 0] (enter rmwContext.cfgInst)
        rmwOperands).map (·.1) =
      .ok [.add (.addr 64 ⟨"", "RAX", "", 1, 0, false⟩)
              (.xref ⟨none, none, some ⟨0x601000, 0⟩⟩ .disp 0x601000),
            .add (.addr 64 ⟨"", "RAX", "", 1, 0, false⟩)
              (.xref ⟨none, none, some ⟨0x601000, 0⟩⟩ .disp 0x601000)] := by
  obtain ⟨-, h⟩ := liftAddressOperand_history_free rmwContext 0 64 []
    (show runCallbacks rmwContext 0 [] (enter rmwContext.cfgInst) rmwOperands = .ok _ from rfl)
  exact h 0 1 _ _ (by decide) rfl rfl rfl

end Address

section Failure

open InstructionLifter

/-- The operand a callback names. -/
def Callback.index : Callback → Nat
  | .immediate _ i | .address _ i => i

/-- The `CHECK` of `LiftImmediateOperand` fires exactly when it would hand out the unused
immediate reference for an argument wider than a pointer. -/
theorem liftImmediateOperand_error_iff (ctx : LiftContext) (st : InstructionLifter) (b : Nat)
    (op : Operand) (e : String) :
    liftImmediateOperand ctx st b op = .error e ↔
      e = immediateTooWideMessage ∧ st.immRefUsed = false ∧ st.immRef.isSome ∧
        ctx.addressSize < b := by
  unfold liftImmediateOperand
  split
  · next r hr hu =>
    by_cases hle : b ≤ ctx.addressSize
    · simp [hle, hr, hu]
    · simp [hle, hr, hu, eq_comm, Nat.lt_of_not_le hle]
  · next hne =>
    refine ⟨fun h => (by cases h), fun ⟨_, hu, hs, _⟩ => ?_⟩
    obtain ⟨r, hr⟩ := Option.isSome_iff_exists.mp hs
    exact absurd hu (hne r hr)

/-- The operands a callback hands back: an immediate callback leaves them, an address callback
writes back the operand it names. -/
theorem Callback.run_ok_operands {ctx : LiftContext} {pc : Nat} {st st' : InstructionLifter}
    {ops ops' : List Operand} {c : Callback} {v : LiftedValue} {d : List Diagnostic}
    (h : c.run ctx pc st ops = .ok (v, st', ops', d)) :
    match c with
    | .immediate _ _ => ops' = ops
    | .address b i => ∃ op, ops[i]? = some op ∧
        ops' = ops.set i (liftAddressOperand ctx st b pc op).2.2.1 := by
  cases c with
  | immediate b i =>
    simp only [Callback.run] at h
    split at h
    · next op _ =>
      cases himm : liftImmediateOperand ctx st b op with
      | error e => simp [himm, Except.map] at h
      | ok r =>
        simp only [himm, Except.map, Except.ok.injEq, Prod.mk.injEq] at h
        exact h.2.2.1.symm
    · cases h
  | address b i =>
    simp only [Callback.run] at h
    split at h
    · next op hop =>
      simp only [Except.ok.injEq, Prod.mk.injEq] at h
      exact ⟨op, hop, h.2.2.1.symm⟩
    · cases h

/-- An address callback writes its operand back in place. -/
theorem Callback.run_length {ctx : LiftContext} {pc : Nat} {st st' : InstructionLifter}
    {ops ops' : List Operand} {c : Callback} {v : LiftedValue} {d : List Diagnostic}
    (h : c.run ctx pc st ops = .ok (v, st', ops', d)) : ops'.length = ops.length := by
  cases c with
  | immediate b i => rw [show ops' = ops from Callback.run_ok_operands h]
  | address b i =>
    obtain ⟨op, -, rfl⟩ := Callback.run_ok_operands h
    exact List.length_set ..

/-- A callback naming an operand of the instruction fails only on that `CHECK`. -/
theorem Callback.run_error_iff {ctx : LiftContext} {pc : Nat} {st : InstructionLifter}
    {ops : List Operand} {c : Callback} (hi : c.index < ops.length) (e : String) :
    c.run ctx pc st ops = .error e ↔ ∃ b i, c = .immediate b i ∧ e = immediateTooWideMessage ∧
      st.immRefUsed = false ∧ st.immRef.isSome ∧ ctx.addressSize < b := by
  have hop : ops[c.index]? = some ops[c.index] := List.getElem?_eq_getElem hi
  cases c with
  | immediate b i =>
    have key := liftImmediateOperand_error_iff ctx st b ops[i] e
    simp only [Callback.index] at hop
    simp only [Callback.run, hop, Callback.immediate.injEq, exists_and_left, exists_eq_left',
      exists_eq']
    cases h : liftImmediateOperand ctx st b ops[i] <;> simp_all [Except.map]
  | address b i =>
    simp only [Callback.run, Callback.index] at hop ⊢
    simp [hop]

/-- From any state inside a lift, the callback loop over operands of the instruction fails
exactly when the immediate reference is present and unused and the first immediate callback
asks for an argument wider than a pointer, and then with the message of that `CHECK`. -/
theorem runCallbacks_error_iff {ctx : LiftContext} {pc : Nat} (e : String) :
    ∀ (cs : List Callback) {st : InstructionLifter} {ops : List Operand},
      Inside ctx.cfgInst st → (∀ c ∈ cs, c.index < ops.length) →
      (runCallbacks ctx pc cs st ops = .error e ↔
        e = immediateTooWideMessage ∧ st.immRefUsed = false ∧ (enter ctx.cfgInst).immRef.isSome ∧
          ∃ b i, cs.find? Callback.isImmediate = some (.immediate b i) ∧ ctx.addressSize < b)
  | [], _, _, _, _ => by simp [runCallbacks]
  | c :: cs, st, ops, hin, hidx => by
    cases hc : c.run ctx pc st ops with
    | error e' =>
      obtain ⟨b, i, rfl, rfl, hu, hs, hb⟩ := (Callback.run_error_iff (hidx c (.head _)) e').mp hc
      rw [hin.immRef_of_unused hu] at hs
      simp [runCallbacks, hc, bind, Except.bind, hu, hs, hb, Callback.isImmediate, eq_comm]
    | ok res =>
      obtain ⟨v, st₁, ops₁, d⟩ := res
      have hin₁ := (c.run_step hin hc).2.1
      have hlen := Callback.run_length hc
      have hcons : runCallbacks ctx pc (c :: cs) st ops = .error e ↔
          runCallbacks ctx pc cs st₁ ops₁ = .error e := by
        simp only [runCallbacks, hc, bind, Except.bind]
        split <;> simp_all [pure, Except.pure]
      rw [hcons, runCallbacks_error_iff e cs hin₁ fun c' hc' => hlen ▸ hidx c' (.tail _ hc')]
      cases c with
      | address b i =>
        simp [(Callback.run_address hin hc).2, Callback.isImmediate]
      | immediate b i =>
        -- the first immediate callback returned: the reference is spent, and was not too wide
        have hdone : ImmDone ctx.cfgInst st₁ := by
          cases hu : st.immRefUsed
          · exact (Callback.run_immediate_first hin hu hc).2
          · exact (Callback.run_immediate_done hin (.inr hu) hc).2 ▸ .inr hu
        refine ⟨fun ⟨_, hu₁, hs₁, _⟩ => ?_, fun ⟨_, hu, hs, b', i', hfind, hb⟩ => ?_⟩
        · rcases hdone with h | h
          · simp [h] at hs₁
          · simp [h] at hu₁
        · have hfirst : (Callback.immediate b i :: cs).find? Callback.isImmediate =
              some (.immediate b i) := List.find?_cons_of_pos _ rfl
          rw [hfirst, Option.some.injEq, Callback.immediate.injEq] at hfind
          obtain ⟨rfl, rfl⟩ := hfind
          have herr := (@Callback.run_error_iff ctx pc st ops _ (hidx _ (.head _))
            immediateTooWideMessage).mpr
            ⟨_, _, rfl, rfl, hu, (hin.immRef_of_unused hu).symm ▸ hs, hb⟩
          rw [hc] at herr
          cases herr

/-- When remill's callbacks name operands of the instruction, `LiftIntoBlock` fails only on
the `CHECK` of `LiftImmediateOperand`, and exactly when the CFG instruction has an immediate
reference and the first immediate operand remill lifts fills an argument wider than the
architecture's pointers. -/
theorem liftIntoBlock_error_iff (ctx : LiftContext) (inst : Instruction) (r : RemillLift)
    (hidx : ∀ c ∈ r.callbacks, c.index < inst.operands.length) (e : String) :
    liftIntoBlock ctx inst r = .error e ↔
      e = immediateTooWideMessage ∧ (∃ c, ctx.cfgInst = some c ∧ c.imm.isSome) ∧
        ∃ b i, r.callbacks.find? Callback.isImmediate = some (.immediate b i) ∧
          ctx.addressSize < b := by
  have hlift : liftIntoBlock ctx inst r = .error e ↔ runCallbacks ctx inst.pc r.callbacks
      (enter ctx.cfgInst) inst.operands = .error e := by
    unfold liftIntoBlock
    cases runCallbacks ctx inst.pc r.callbacks (enter ctx.cfgInst) inst.operands <;>
      simp [bind, Except.bind, pure, Except.pure]
  rw [hlift, runCallbacks_error_iff e r.callbacks ⟨rfl, rfl, .inl rfl⟩ hidx]
  have hent : (enter ctx.cfgInst).immRef.isSome ↔ ∃ c, ctx.cfgInst = some c ∧ c.imm.isSome :=
    enter_ref_isSome ctx.cfgInst .imm
  have hunused : (enter ctx.cfgInst).immRefUsed = false := enter_used ctx.cfgInst .imm
  simp only [hent, hunused, true_and]

/-- A 32-bit lift whose CFG instruction has an immediate reference, and whose semantics take
that immediate as a 64-bit argument. -/
def wideImmediateLift : LiftContext × Instruction × RemillLift :=
  ({ cfgInst := some ⟨none, some ⟨0x8000, 0⟩, none⟩, addressSize := 32,
     hasSegment := fun _ => false },
   { pc := 0x1000, operands := [⟨64, 0x8000, ⟨"", "", "", 0, 0, false⟩⟩] },
   { callbacks := [.immediate 64 0], status := .liftedInstruction })

theorem wideImmediateLift_fails :
    (∀ c ∈ wideImmediateLift.2.2.callbacks, c.index < wideImmediateLift.2.1.operands.length) ∧
      liftIntoBlock wideImmediateLift.1 wideImmediateLift.2.1 wideImmediateLift.2.2 =
        .error immediateTooWideMessage :=
  ⟨by decide, (liftIntoBlock_error_iff _ _ _ (by decide) _).mpr
    ⟨rfl, ⟨_, rfl, rfl⟩, 64, 0, rfl, by decide⟩⟩

end Failure

section WriteBack

open InstructionLifter

/-- The operand with its displacement cleared, as `mem.displacement = 0` leaves it. -/
def Operand.zeroDisplacement (op : Operand) : Operand :=
  { op with addr := { op.addr with displacement := 0 } }

@[simp]
theorem Operand.zeroDisplacement_idem (op : Operand) :
    op.zeroDisplacement.zeroDisplacement = op.zeroDisplacement := rfl

/-- When `LiftAddressOperand` clears the displacement of `op` within the lift of `ctx`: the
address is no control-flow target, takes neither absolute branch, and the instruction has a
displacement reference, or a memory reference whose target is the raw displacement.  The used
flags are not consulted. -/
def ZeroesDisplacement (ctx : LiftContext) (op : Operand) : Prop :=
  op.addr.isControlFlowTarget = false ∧
    ¬ ((op.addr.baseReg = "" ∧ op.addr.indexReg = "") ∨
      (op.addr.baseReg = "PC" ∧ op.addr.indexReg = "")) ∧
    ¬ ((op.addr.baseReg = "" ∧ op.addr.indexReg = "") ∨
      (op.addr.baseReg = "NEXT_PC" ∧ op.addr.indexReg = "")) ∧
    ((enter ctx.cfgInst).dispRef.isSome ∨
      ((enter ctx.cfgInst).memRef.isSome ∧
        some op.addr.dispBits = (ctx.cfgInst.bind (·.mem)).map (·.targetEa)))

instance (ctx : LiftContext) (op : Operand) : Decidable (ZeroesDisplacement ctx op) :=
  inferInstanceAs (Decidable (_ ∧ _ ∧ _ ∧ _))

/-- The operand `op` after callbacks of which some (`writes`) are address callbacks naming it. -/
def Operand.writeBack (ctx : LiftContext) (writes : Bool) (op : Operand) : Operand :=
  if writes ∧ ZeroesDisplacement ctx op then op.zeroDisplacement else op

@[simp]
theorem Operand.writeBack_false (ctx : LiftContext) : Operand.writeBack ctx false = id :=
  funext fun _ => by simp [Operand.writeBack]

/-- Whether a callback is an address callback naming operand `j`. -/
def Callback.writes : Callback → Nat → Bool
  | .address _ i, j => i == j
  | .immediate _ _, _ => false

/-- A second write-back adds nothing to a first: clearing is decided on the operand the first
left, which is cleared already or unchanged. -/
theorem Operand.writeBack_writeBack (ctx : LiftContext) (w w' : Bool) (op : Operand) :
    (op.writeBack ctx w).writeBack ctx w' = op.writeBack ctx (w || w') := by
  by_cases hz : ZeroesDisplacement ctx op <;> cases w <;> cases w' <;>
    simp [Operand.writeBack, hz]

/-- Inside a lift, the operand `LiftAddressOperand` hands back is its argument, with the
displacement cleared exactly when `ZeroesDisplacement` says. -/
theorem Inside.liftAddressOperand_operand
    {ctx : LiftContext} {st : InstructionLifter}
    (hin : Inside ctx.cfgInst st) (b pc : Nat) (op : Operand) :
    (liftAddressOperand ctx st b pc op).2.2.1 = op.writeBack ctx true := by
  unfold liftAddressOperand
  rw [hin.mem, hin.disp]
  dsimp only
  split
  · next h1 => simp [Operand.writeBack, ZeroesDisplacement, h1]
  split
  · next h2 => simp [Operand.writeBack, ZeroesDisplacement, h2]
  split
  · next h3 => simp [Operand.writeBack, ZeroesDisplacement, h3]
  next h1 h2 h3 =>
  -- the branch that may clear: by the references of the prologue
  simp only [Bool.not_eq_true] at h1
  split
  · next hd =>
    simp [Operand.writeBack, ZeroesDisplacement, h1, h2, h3, hd, Operand.zeroDisplacement]
  · split <;> simp_all [Operand.writeBack, ZeroesDisplacement, Operand.zeroDisplacement]
  · next hd hm => simp [Operand.writeBack, ZeroesDisplacement, hd, hm]

/-- One callback: an address callback writes back the operand it names, and nothing else
changes. -/
theorem Callback.run_operands
    {ctx : LiftContext} {pc : Nat} {st st' : InstructionLifter} {ops ops' : List Operand}
    {c : Callback} {v : LiftedValue} {d : List Diagnostic}
    (hin : Inside ctx.cfgInst st)
    (h : c.run ctx pc st ops = .ok (v, st', ops', d)) (j : Nat) :
    ops'[j]? = ops[j]?.map (Operand.writeBack ctx (c.writes j)) := by
  cases c with
  | immediate b i =>
    rw [show ops' = ops from Callback.run_ok_operands h]
    simp [Callback.writes]
  | address b i =>
    obtain ⟨op, hop, rfl⟩ := Callback.run_ok_operands h
    rw [hin.liftAddressOperand_operand]
    by_cases hij : i = j
    · subst hij
      have hi : i < ops.length := (List.getElem?_eq_some_iff.mp hop).1
      simp [hop, hi, Callback.writes]
    · cases hj : ops[j]? <;> simp [hj, hij, Callback.writes, Operand.writeBack]

/-- Over any callback sequence run inside a lift, operand `j` comes back cleared exactly when
some address callback names it and `LiftAddressOperand` clears it; every other operand comes
back as it was, and no operand is added or dropped. -/
theorem runCallbacks_operands {ctx : LiftContext} {pc : Nat} (j : Nat) :
    ∀ (cs : List Callback) {st st' : InstructionLifter} {ops ops' : List Operand}
      {vs : List LiftedValue} {ds : List Diagnostic},
      Inside ctx.cfgInst st → runCallbacks ctx pc cs st ops = .ok (vs, st', ops', ds) →
      ops'[j]? = ops[j]?.map (Operand.writeBack ctx (cs.any fun c => c.writes j))
  | [], _, _, _, _, _, _, _, h => by
    simp only [runCallbacks, Except.ok.injEq, Prod.mk.injEq] at h
    simp [← h.2.2.1]
  | c :: cs, st, _, ops, _, _, _, hin, h => by
    obtain ⟨v, st₁, ops₁, d, vs', ds', hc, hcs, -, -⟩ := runCallbacks_cons_eq_ok h
    rw [runCallbacks_operands j cs (c.run_step hin hc).2.1 hcs, Callback.run_operands hin hc j]
    cases ops[j]? <;> simp [Operand.writeBack_writeBack]

/-- The instruction `LiftIntoBlock` hands back: its address unchanged, and operand `j`
cleared of its displacement exactly when one of remill's address callbacks names it and
`LiftAddressOperand` clears it, whatever the order and number of the callbacks. -/
theorem liftIntoBlock_operands (ctx : LiftContext) (inst : Instruction) (r : RemillLift)
    {rec : LiftRecord} {st : InstructionLifter} {inst' : Instruction}
    (h : liftIntoBlock ctx inst r = .ok (rec, st, inst')) :
    inst'.pc = inst.pc ∧ ∀ j, inst'.operands[j]? =
      inst.operands[j]?.map (Operand.writeBack ctx (r.callbacks.any fun c => c.writes j)) := by
  unfold liftIntoBlock at h
  cases hrun : runCallbacks ctx inst.pc r.callbacks (enter ctx.cfgInst) inst.operands with
  | error e => simp [hrun, bind, Except.bind] at h
  | ok res =>
    obtain ⟨vs, st', ops, ds⟩ := res
    simp only [hrun, bind, Except.bind, pure, Except.pure, Except.ok.injEq, Prod.mk.injEq] at h
    obtain ⟨-, -, rfl⟩ := h
    exact ⟨rfl, fun j => runCallbacks_operands j r.callbacks ⟨rfl, rfl, .inl rfl⟩ hrun⟩

/-- `mov rax, [extern_jump_table + rdi]`, the case the source's comment names: the CFG gives a
displacement reference to the table, and remill lifts the address of the second operand. -/
def jumpTableLoad : LiftContext × Instruction × RemillLift :=
  ({ cfgInst := some ⟨none, none, some ⟨0x601000, 0⟩⟩, addressSize := 64,
     hasSegment := fun _ => false },
   { pc := 0x400000,
     operands := [⟨64, 0, ⟨"", "", "", 0, 0, false⟩⟩, ⟨64, 0, ⟨"", "", "RDI", 1, 0x601000, false⟩⟩] },
   { callbacks := [.address 64 1], status := .liftedInstruction })

theorem jumpTableLoad_cleared :
    ∃ rec st inst', liftIntoBlock jumpTableLoad.1 jumpTableLoad.2.1 jumpTableLoad.2.2 =
        .ok (rec, st, inst') ∧
      inst'.operands[0]? = some ⟨64, 0, ⟨"", "", "", 0, 0, false⟩⟩ ∧
      inst'.operands[1]? = some ⟨64, 0, ⟨"", "", "RDI", 1, 0, false⟩⟩ := by
  obtain ⟨⟨rec, st, inst'⟩, h⟩ : ∃ res,
      liftIntoBlock jumpTableLoad.1 jumpTableLoad.2.1 jumpTableLoad.2.2 = .ok res := ⟨_, rfl⟩
  have hops := (liftIntoBlock_operands _ _ _ h).2
  exact ⟨rec, st, inst', h, (hops 0).trans (by decide), (hops 1).trans (by decide)⟩

end WriteBack

end Lift
end Mcsema
