import Mcsema.BC.Optimize.Intrinsics

/-!
# mcsema: lowering the ordering barriers (`ReplaceBarrier`)

`ReplaceBarrier(name)` checks that the barrier is only declared, then walks `CallersOf` and,
for each call, replaces every use of the call by the call's memory-state argument and erases
the call.  The argument is read when the call is reached, so a call whose argument is an
earlier call of the same barrier already holds that call's own argument.

**Results.**
* `replaceBarrierCall_step`: one iteration moves the module along the chain rewrite of
  `IR.Rewrite`.
* `replaceBarrier_rewires`: for every order of the calls, `ReplaceBarrier` erases every call of
  the barrier and sends every use to the first value of its memory-state chain that is not a
  call of the barrier.
-/

namespace Mcsema
namespace Optimize

open IR

section Barrier

/-- Modelled from the spec: `remill::kMemoryPointerArgNum`, the position of the memory-state
argument, which is the first parameter of the intrinsics. -/
def kMemoryPointerArgNum : Nat := 0

/-- `call->getArgOperand(remill::kMemoryPointerArgNum)` on the call `c` as it is in `m`. -/
def memoryArgOf (m : Module) (c : Nat) : Option Value :=
  (m.inst? c).bind (·.getArgOperand kMemoryPointerArgNum)

/-- The memory-state argument of `c`, used as the `next` of its chain. -/
def memoryArg (m : Module) (c : Nat) : Value :=
  (memoryArgOf m c).getD (.undef .void)

/-- The body of the loop of `ReplaceBarrier` for one call. -/
def replaceBarrierCall (m : Module) (call : Nat) : Except String Module :=
  match memoryArgOf m call with
  | some memPtr => (m.replaceAllUsesWith (.inst call) memPtr).eraseInst call
  | none => .error "getArgOperand: operand out of range"

/-- `ReplaceBarrier(name)`. -/
def replaceBarrier (ord : UseOrder) (name : String) (m : Module) : Except String Module :=
  match m.getFunction name with
  | none => .ok m
  | some func =>
    if func.isDeclaration then (callersOf ord m name).foldlM replaceBarrierCall m
    else .error ("Cannot lower already implemented memory intrinsic " ++ name)

theorem getArgOperand_mapOperands (i : Inst) (f : Value → Value) (n : Nat) :
    Inst.getArgOperand { i with operands := i.operands.map f } n = (i.getArgOperand n).map f := by
  simp [Inst.getArgOperand]

variable {m : Module} {P : List Nat} {c : Nat}

/-- The module after the loop has handled the calls `P`. -/
def barrierState (m : Module) (P : List Nat) : Module :=
  (m.removeInsts P).mapOperands (rauwChain (memoryArg m) P)

theorem memoryArgOf_barrierState (hc : c ∉ P) :
    memoryArgOf (barrierState m P) c = (memoryArgOf m c).map (rauwChain (memoryArg m) P) := by
  simp only [memoryArgOf, barrierState, Module.inst?_mapOperands, Module.inst?_removeInsts _ _ hc]
  cases m.inst? c <;> simp [getArgOperand_mapOperands]

theorem any_id_barrierState (hc : c ∉ P) (hpres : m.insts.any (·.id == c) = true) :
    (barrierState m P).insts.any (·.id == c) = true := by
  obtain ⟨i, hi, hid⟩ := List.any_eq_true.mp hpres
  simp only [barrierState, Module.insts_mapOperands, Module.insts_removeInsts, List.any_map,
    List.any_eq_true, List.mem_filter, Function.comp_apply]
  exact ⟨i, ⟨hi, by simpa [show i.id = c by simpa using hid] using hc⟩, by simpa using hid⟩

/-- One iteration of the loop: the call `c`, not handled before and still carrying its
memory-state argument, is replaced and erased. -/
theorem replaceBarrierCall_step
    (hc : c ∉ P)
    (hpres : m.insts.any (·.id == c) = true)
    (harg : memoryArgOf m c ≠ none) :
    replaceBarrierCall (barrierState m P) c = .ok (barrierState m (P ++ [c])) := by
  obtain ⟨a, ha⟩ := Option.ne_none_iff_exists'.mp harg
  have hnext : memoryArg m c = a := by simp [memoryArg, ha]
  have hpres' : ((barrierState m P).replaceAllUsesWith (.inst c)
      (rauwChain (memoryArg m) P a)).insts.any (·.id == c) = true := by
    rw [Module.replaceAllUsesWith_eq_mapOperands, Module.insts_mapOperands, List.any_map]
    simpa [Function.comp_def] using any_id_barrierState hc hpres
  rw [replaceBarrierCall, memoryArgOf_barrierState hc, ha, Option.map_some']
  dsimp only
  rw [Module.eraseInst, if_pos hpres']
  simp only [barrierState,
    Module.replaceAllUsesWith_eq_mapOperands, Module.mapOperands_mapOperands,
    Module.removeInst_eq_removeInsts, ← Module.removeInsts_mapOperands,
    Module.removeInsts_removeInsts, rauwChain_append_singleton, hnext]

theorem barrierState_nil (m : Module) :
    barrierState m [] = m := by
  simp [barrierState, rauwChain, Module.removeInsts_nil, Module.mapOperands_id]

/-- A chain that stops at the barrier function starts there, when no barrier call takes the
barrier itself as its memory state. -/
theorem onChain_func {name : String}
    (hargs : ∀ c ∈ callsTo m name, memoryArgOf m c ≠ some (.func name))
    {v w : Value}
    (h : OnChain (callsTo m name) (memoryArg m) v w)
    (hw : w = .func name) :
    v = .func name := by
  induction h with
  | refl => exact hw
  | @step c _ hc _ ih =>
    have hnext := ih hw
    cases ha : memoryArgOf m c with
    | none => simp [memoryArg, ha] at hnext
    | some a =>
      simp only [memoryArg, ha, Option.getD_some] at hnext
      exact absurd (hnext ▸ ha) (hargs c hc)

/-- `ReplaceBarrier` erases every call of a declared barrier, in whatever order `CallersOf`
lists them, and every remaining use now refers to the first value of its memory-state chain
that is not a call of the barrier. -/
theorem replaceBarrier_rewires
    (ord : UseOrder)
    (name : String)
    (m : Module)
    (func : Function)
    (hfunc : m.getFunction name = some func)
    (hdecl : func.isDeclaration = true)
    (hids : m.IdsUnique)
    (hargs : ∀ c ∈ callsTo m name, memoryArgOf m c ≠ none ∧ memoryArgOf m c ≠ some (.func name))
    (hacyc : ChainsAcyclic (callsTo m name) (memoryArg m)) :
    ∃ m' σ, replaceBarrier ord name m = .ok m' ∧
      m' = (m.removeInsts (callsTo m name)).mapOperands σ ∧
      (∀ v, OnChain (callsTo m name) (memoryArg m) v (σ v) ∧
        ∀ c ∈ callsTo m name, σ v ≠ .inst c) ∧
      callsTo m' name = [] ∧
      ∀ v ∈ m'.operands, ∀ c ∈ callsTo m name, v ≠ .inst c := by
  set C := callsTo m name
  set σ := rauwChain (memoryArg m) (callersOf ord m name)
  -- the loop walks the prefixes of the caller list
  obtain ⟨m', hloop, rfl⟩ := foldlM_prefix_invariant (fun P b => b = barrierState m P)
    (callersOf ord m name) m (barrierState_nil m).symm (by
      rintro P c Q _ hL rfl
      have hcC : c ∈ C := mem_callersOf.mp (show c ∈ callersOf ord m name by simp [hL])
      have hcP : c ∉ P := not_mem_of_nodup_append_cons (hL ▸ callersOf_nodup ord hids name)
      exact ⟨_, replaceBarrierCall_step hcP (mem_callsTo hcC) (hargs c hcC).1, rfl⟩)
  have hstate : barrierState m (callersOf ord m name) = (m.removeInsts C).mapOperands σ := by
    rw [barrierState, Module.removeInsts_perm m (callersOf_perm ord m name)]
  have hsub : ∀ c ∈ callersOf ord m name, c ∈ C := fun c hc => mem_callersOf.mp hc
  have hend : ∀ v, ∀ c ∈ C, σ v ≠ .inst c := fun v c hc =>
    rauwChain_not_call hacyc _ hsub v c (mem_callersOf.mpr hc)
  refine ⟨_, σ, by simp [replaceBarrier, hfunc, hdecl, hloop], hstate,
    fun v => ⟨rauwChain_onChain _ hsub v, hend v⟩, ?_, ?_⟩
  · -- a remaining call of the barrier would have been a call of it before
    rw [hstate]
    simp only [callsTo, Module.insts_mapOperands, Module.insts_removeInsts, List.map_eq_nil_iff,
      List.filter_eq_nil_iff, List.mem_map, List.mem_filter, decide_eq_true_eq]
    rintro _ ⟨i, ⟨hi, hiC⟩, rfl⟩ hcall
    simp only [Bool.and_eq_true, beq_iff_eq, List.head?_map, Option.map_eq_some'] at hcall
    obtain ⟨hop, x, hx, hσx⟩ := hcall
    obtain rfl := onChain_func (fun c hc => (hargs c hc).2) (rauwChain_onChain _ hsub x) hσx
    exact hiC (List.mem_map.mpr ⟨i, List.mem_filter.mpr ⟨hi, by simp [hop, hx]⟩, rfl⟩)
  · rw [hstate, Module.operands_mapOperands]
    rintro _ hv c hc rfl
    obtain ⟨u, -, hu⟩ := List.mem_map.mp hv
    exact hend u c hc hu

/-- Two chained calls of `__remill_barrier_store_load`: the second takes the first's result as
its memory state, and the function returns the second's result. -/
def barrierChain : Module where
  functions :=
    [ { name := "__remill_barrier_store_load", type := { ret := .memory, params := [.memory] }
        linkage := .external, attrs := [], blocks := [] },
      { name := "sub_401000"
        type := { ret := .memory, params := [.memory, .state, .int 64] }
        linkage := .external
        attrs := []
        blocks :=
          [ { label := 0
              insts :=
                [ { id := 1, op := .call, ty := .memory,
                    operands := [.func "__remill_barrier_store_load", .arg 0] },
                  { id := 2, op := .call, ty := .memory,
                    operands := [.func "__remill_barrier_store_load", .inst 1] },
                  { id := 3, op := .ret, ty := .void, operands := [.inst 2] } ] } ] } ]
  globals := []
  constants := []

theorem barrierChain_rewired :
    ∃ m', replaceBarrier layoutReversed "__remill_barrier_store_load" barrierChain = .ok m' ∧
      callsTo m' "__remill_barrier_store_load" = [] := by
  obtain ⟨m', -, h, -, -, hcalls, -⟩ := replaceBarrier_rewires layoutReversed
    "__remill_barrier_store_load" barrierChain _ rfl
    rfl (by decide) (by decide) (chainsAcyclic_of_rank id (by decide))
  exact ⟨m', h, hcalls⟩

end Barrier

end Optimize
end Mcsema
