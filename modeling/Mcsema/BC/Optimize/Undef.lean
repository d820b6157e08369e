import Mcsema.BC.Optimize.Intrinsics
import Mcsema.IR.Rewrite

/-!
# mcsema: removing the undefined-value intrinsics (`ReplaceUndefIntrinsic`)

`ReplaceUndefIntrinsic(function)` has three loops.  The first collects the users of every call
of `function` into a work list, replaces the call by `undef` and deletes it.  The second is a
`while` loop over rounds: each element of the work list that is a cmp or a cast hands its users
to the next round's list and is replaced by `undef` of its own type, and each element that is a
store is appended to `dead_stores`.  The third erases every element of `dead_stores`.

**Work lists.**  A work list is a `std::set<llvm::User *>`, ordered by address; identities
stand for addresses, so `setInsert` keeps the list sorted by identity and free of repeats.
`dead_stores` is a `std::vector`: a store handed to two different rounds is appended twice.

**Rounds.**  `undefRounds fuel` tests the loop condition at most `fuel` times.
`undefPropagation` gives it one more than the number of instructions plus one, which suffices:
every round that leaves work behind has replaced a cmp or cast not replaced before.  A cmp or
cast on a cycle can be handed to a second round, but it has no users left by then, so the
measure is the cmp and cast instructions not yet replaced, not the size of the work list.

**Results.**
* `replaceUndefIntrinsic_erases_reached_stores`: the propagation ends on every module, and the
  stores handed to the erase loop are exactly those with a reached operand.
* `undefRounds_le_cmpCast_count`: the loop ends after at most two more tests of its condition
  than the function has cmp and cast instructions, on every use graph, cycles included.
* `undefPropagation_eq_undefState`: the first two loops end in `undefState`, each call replaced
  by `undef` and each cmp or cast reached from a call replaced by `undef` of its own type.
-/

namespace Mcsema
namespace Optimize

open IR

section Undef

/-- `std::set<llvm::User *>::insert` on a set kept in address order. -/
def setInsert (x : Nat) : List Nat → List Nat
  | [] => [x]
  | y :: ys => if x < y then x :: y :: ys else if x = y then y :: ys else y :: setInsert x ys

/-- `work_list.insert(first, last)`. -/
def setInsertAll (xs s : List Nat) : List Nat :=
  xs.foldl (fun s x => setInsert x s) s

/-- The body of the first loop for one call: collect its users, replace it by `undef`, delete
it. -/
def replaceUndefCall (undef : Value) (acc : Module × List Nat) (call : Nat) :
    Except String (Module × List Nat) := do
  let work := setInsertAll (acc.1.instUsers (.inst call)) acc.2
  let m ← (acc.1.replaceAllUsesWith (.inst call) undef).eraseInst call
  return (m, work)

/-- The body of `for (auto inst : work_list)`: the module, `next_work_list` and
`dead_stores`. -/
def propagateUndef (acc : Module × List Nat × List Nat) (id : Nat) :
    Except String (Module × List Nat × List Nat) :=
  match acc.1.inst? id with
  | none => .error "work list holds an instruction that is no longer in its function"
  | some inst =>
    if inst.op.isCmpOrCast then
      .ok (acc.1.replaceAllUsesWith (.inst id) (.undef inst.ty),
        setInsertAll (acc.1.instUsers (.inst id)) acc.2.1, acc.2.2)
    else if inst.op = .store then .ok (acc.1, acc.2.1, acc.2.2 ++ [id])
    else .ok acc

/-- `while (work_list.size())`, testing the condition at most `fuel` times. -/
def undefRounds : Nat → Module → List Nat → List Nat → Except String (Module × List Nat)
  | 0, _, _, _ => .error "work list not empty after the last round"
  | fuel + 1, m, work, dead =>
    if work.isEmpty then .ok (m, dead)
    else do
      let (m, next, dead) ← work.foldlM propagateUndef (m, [], dead)
      undefRounds fuel m next dead

/-- The first two loops of `ReplaceUndefIntrinsic`: the module and `dead_stores`. -/
def undefPropagation (ord : UseOrder) (function : Function) (m : Module) :
    Except String (Module × List Nat) := do
  let (m₁, work) ← (callersOf ord m function.name).foldlM
    (replaceUndefCall (.undef function.type.ret)) (m, [])
  undefRounds (m.insts.length + 2) m₁ work []

/-- `ReplaceUndefIntrinsic(function)`. -/
def replaceUndefIntrinsic (ord : UseOrder) (function : Function) (m : Module) :
    Except String Module := do
  let (m₂, dead) ← undefPropagation ord function m
  dead.foldlM Module.eraseInst m₂

/-- The intrinsics `RemoveUndefFuncCalls` looks up. -/
def undefIntrinsicNames : List String :=
  [ "__remill_undefined_8", "__remill_undefined_16", "__remill_undefined_32",
    "__remill_undefined_64", "__remill_undefined_f32", "__remill_undefined_f64" ]

/-- `RemoveUndefFuncCalls`: the functions are looked up once, before any is replaced. -/
def removeUndefFuncCalls (ord : UseOrder) (m : Module) : Except String Module :=
  (undefIntrinsicNames.filterMap m.getFunction).foldlM
    (fun m f => do
      let m ← replaceUndefIntrinsic ord f m
      return removeFunction f.name m) m

/-- A declared `__remill_undefined_64`. -/
def undefined64 : Function :=
  { name := "__remill_undefined_64", type := { ret := .int 64, params := [] }
    linkage := .external, attrs := [], blocks := [] }

/-- A function that stores an undefined value at an address cast from that same value:
`store u, (inttoptr u)` for `u = __remill_undefined_64()`. -/
def storeUndefAtUndef : Module where
  functions :=
    [ undefined64,
      { name := "sub_401000"
        type := { ret := .memory, params := [.memory, .state, .int 64] }
        linkage := .external
        attrs := []
        blocks :=
          [ { label := 0
              insts :=
                [ { id := 1, op := .call, ty := .int 64,
                    operands := [.func "__remill_undefined_64"] },
                  { id := 2, op := .cast .inttoptr, ty := .ptr (.int 64), operands := [.inst 1] },
                  { id := 3, op := .store, ty := .void, operands := [.inst 1, .inst 2] },
                  { id := 4, op := .ret, ty := .void, operands := [.arg 0] } ] } ] } ]
  globals := []
  constants := []

theorem replaceUndefIntrinsic_erases_twice (ord : UseOrder) :
    (undefPropagation ord undefined64 storeUndefAtUndef).map Prod.snd = .ok [3, 3] ∧
      replaceUndefIntrinsic ord undefined64 storeUndefAtUndef =
        .error "eraseFromParent: instruction is no longer in its function" := by
  have hord : callersOf ord storeUndefAtUndef "__remill_undefined_64" = [1] :=
    List.perm_singleton.mp (ord.perm _ _)
  simp only [replaceUndefIntrinsic, undefPropagation, undefined64, hord]
  exact ⟨rfl, rfl⟩

@[simp] theorem mem_setInsert {x y : Nat} {s : List Nat} :
    y ∈ setInsert x s ↔ y = x ∨ y ∈ s := by
  induction s with
  | nil => simp [setInsert]
  | cons z zs ih =>
    unfold setInsert
    split_ifs with hlt heq
    · simp
    · subst heq; simp
    · simp only [List.mem_cons, ih]; exact or_left_comm

@[simp] theorem mem_setInsertAll {xs s : List Nat} {y : Nat} :
    y ∈ setInsertAll xs s ↔ y ∈ xs ∨ y ∈ s := by
  induction xs generalizing s with
  | nil => simp [setInsertAll]
  | cons x xs ih =>
    simp only [setInsertAll, List.foldl_cons] at ih ⊢
    rw [ih, mem_setInsert, List.mem_cons]
    exact or_left_comm.trans or_assoc.symm

/-! ### What the pass reaches -/

/-- The instructions reached from the calls of `name`: the calls, and every cmp or cast with a
reached operand. -/
inductive Reached (m : Module) (name : String) : Nat → Prop
  | call {c : Nat} : c ∈ callsTo m name → Reached m name c
  | cmpCast {i : Inst} {j : Nat} : i ∈ m.insts → i.op.isCmpOrCast = true →
      .inst j ∈ i.operands → Reached m name j → Reached m name i.id

/-- An instruction with a reached operand, in any slot. -/
def UsesReached (m : Module) (name : String) (x : Nat) : Prop :=
  ∃ i ∈ m.insts, i.id = x ∧ ∃ j, .inst j ∈ i.operands ∧ Reached m name j

/-- A store with a reached operand: its stored value or its address. -/
def ReachedStore (m : Module) (name : String) (s : Nat) : Prop :=
  ∃ i ∈ m.insts, i.id = s ∧ i.op = .store ∧ ∃ j, .inst j ∈ i.operands ∧ Reached m name j

/-- The calls of `name` take no arguments, as the undefined intrinsics have no parameters. -/
def CallsTakeNoArgs (m : Module) (name : String) : Prop :=
  ∀ c ∈ callsTo m name, (m.inst? c).map Inst.operands = some [.func name]

instance (m : Module) (name : String) : Decidable (CallsTakeNoArgs m name) :=
  inferInstanceAs (Decidable (∀ c ∈ callsTo m name, _))

/-- Instruction `j` is a cmp or a cast. -/
def isCmpOrCastAt (m : Module) (j : Nat) : Bool :=
  (m.inst? j).any (·.op.isCmpOrCast)

/-- Instruction `j` is a store. -/
def isStoreAt (m : Module) (j : Nat) : Bool :=
  (m.inst? j).any (·.op == .store)

/-- The result type of instruction `j`. -/
def tyOf (m : Module) (j : Nat) : Ty :=
  ((m.inst? j).map Inst.ty).getD .void

/-- The operand map once the calls `C` are replaced by `undef` of type `ret` and the cmp and
cast instructions `P` by `undef` of their own types. -/
def undefSubst (m : Module) (ret : Ty) (C P : List Nat) : Value → Value
  | .inst j => if j ∈ C then .undef ret else if j ∈ P then .undef (tyOf m j) else .inst j
  | v => v

/-- The module once the calls `C` are deleted and the uses of `C` and `P` replaced. -/
def undefState (m : Module) (ret : Ty) (C P : List Nat) : Module :=
  (m.removeInsts C).mapOperands (undefSubst m ret C P)

variable {m : Module} {name : String} {ret : Ty}

theorem undefSubst_eq_inst {C P : List Nat} {v : Value} {j : Nat} :
    undefSubst m ret C P v = .inst j ↔ v = .inst j ∧ j ∉ C ∧ j ∉ P := by
  cases v with
  | inst k =>
    by_cases hC : k ∈ C
    · simp only [undefSubst, if_pos hC, reduceCtorEq, false_iff, not_and, Value.inst.injEq]
      rintro rfl h; exact absurd hC h
    · by_cases hP : k ∈ P
      · simp only [undefSubst, if_neg hC, if_pos hP, reduceCtorEq, false_iff, not_and,
          Value.inst.injEq]
        rintro rfl -; exact not_not.mpr hP
      · simp only [undefSubst, if_neg hC, if_neg hP, Value.inst.injEq]
        constructor
        · rintro rfl; exact ⟨rfl, hC, hP⟩
        · exact fun h => h.1
  | _ => simp [undefSubst]

theorem undefSubst_congr {C C' P P' : List Nat}
    (hC : ∀ j, j ∈ C ↔ j ∈ C') (hP : ∀ j, j ∈ P ↔ j ∈ P') :
    undefSubst m ret C P = undefSubst m ret C' P' := by
  funext v
  cases v <;> simp [undefSubst, hC, hP]

theorem undefState_nil :
    undefState m ret [] [] = m := by
  have : undefSubst m ret [] [] = id := by funext v; cases v <;> rfl
  rw [undefState, this, Module.removeInsts_nil, Module.mapOperands_id]

/-- Replacing the call `c` by `undef` extends the replaced calls. -/
theorem replace_undefSubst_call {C : List Nat} (c : Nat) :
    Value.replace (.inst c) (.undef ret) ∘ undefSubst m ret C [] = undefSubst m ret (C ++ [c]) [] := by
  funext v
  cases v with
  | inst j =>
    by_cases hjc : j = c
    · subst hjc; by_cases hj : j ∈ C <;> simp [undefSubst, Value.replace, hj]
    · by_cases hj : j ∈ C <;> simp [undefSubst, Value.replace, hj, hjc]
  | _ => simp [undefSubst, Value.replace]

/-- Replacing the cmp or cast `j` by `undef` of its type extends the replaced instructions. -/
theorem replace_undefSubst_cmpCast {C P : List Nat} {j : Nat} (hj : j ∉ C) :
    Value.replace (.inst j) (.undef (tyOf m j)) ∘ undefSubst m ret C P =
      undefSubst m ret C (P ++ [j]) := by
  funext v
  cases v with
  | inst k =>
    by_cases hkj : k = j
    · subst hkj; by_cases hk : k ∈ P <;> simp [undefSubst, Value.replace, hj, hk]
    · by_cases hkC : k ∈ C <;> by_cases hkP : k ∈ P <;>
        simp [undefSubst, Value.replace, hkC, hkP, hkj]
  | _ => simp [undefSubst, Value.replace]

theorem inst?_undefState {C P : List Nat} {j : Nat} (hj : j ∉ C) :
    (undefState m ret C P).inst? j =
      (m.inst? j).map fun i => { i with operands := i.operands.map (undefSubst m ret C P) } := by
  rw [undefState, Module.inst?_mapOperands, Module.inst?_removeInsts _ _ hj]

theorem mem_instUsers_undefState {C P : List Nat} {j x : Nat} :
    x ∈ (undefState m ret C P).instUsers (.inst j) ↔
      (∃ i ∈ m.insts, i.id = x ∧ i.id ∉ C ∧ .inst j ∈ i.operands) ∧ j ∉ C ∧ j ∉ P := by
  simp only [undefState, Module.instUsers_mapOperands, Module.insts_removeInsts, List.mem_map,
    List.mem_filter, undefSubst_eq_inst, decide_eq_true_eq]
  constructor
  · rintro ⟨i, ⟨⟨hi, hiC⟩, v, hv, rfl, hjC, hjP⟩, rfl⟩
    exact ⟨⟨i, hi, rfl, hiC, hv⟩, hjC, hjP⟩
  · rintro ⟨⟨i, hi, rfl, hiC, hv⟩, hjC, hjP⟩
    exact ⟨i, ⟨⟨hi, hiC⟩, _, hv, rfl, hjC, hjP⟩, rfl⟩

section WellFormed

variable (hids : m.IdsUnique) (hnoargs : CallsTakeNoArgs m name)
include hids hnoargs

/-- An instruction with an instruction operand is not a call of the intrinsic. -/
theorem not_mem_callsTo_of_operand {i : Inst} {j : Nat} (hi : i ∈ m.insts)
    (hj : .inst j ∈ i.operands) :
    i.id ∉ callsTo m name := by
  intro hc
  have h := hnoargs _ hc
  rw [Module.inst?_of_mem hids hi, Option.map_some', Option.some_inj] at h
  simp [h] at hj

/-- A user of a call is a user in the original module. -/
theorem mem_instUsers_undefState_call {Cp : List Nat} {c x : Nat}
    (hCp : ∀ c' ∈ Cp, c' ∈ callsTo m name) (hcp : c ∉ Cp) :
    x ∈ (undefState m ret Cp []).instUsers (.inst c) ↔ x ∈ m.instUsers (.inst c) := by
  rw [mem_instUsers_undefState, Module.mem_instUsers]
  constructor
  · rintro ⟨⟨i, hi, rfl, -, hv⟩, -⟩; exact ⟨i, hi, rfl, hv⟩
  · rintro ⟨i, hi, rfl, hv⟩
    exact ⟨⟨i, hi, rfl, fun h => not_mem_callsTo_of_operand hids hnoargs hi hv (hCp _ h), hv⟩,
      hcp, List.not_mem_nil c⟩

end WellFormed

/-- One iteration of the first loop on a call not handled before. -/
theorem replaceUndefCall_step {Cp : List Nat} {c : Nat} (hc : c ∈ callsTo m name)
    (hcp : c ∉ Cp) (W : List Nat) :
    replaceUndefCall (.undef ret) (undefState m ret Cp [], W) c =
      .ok (undefState m ret (Cp ++ [c]) [],
        setInsertAll ((undefState m ret Cp []).instUsers (.inst c)) W) := by
  have hpres : c ∈ ((undefState m ret Cp []).replaceAllUsesWith (.inst c) (.undef ret)).insts.map
      Inst.id := by
    obtain ⟨i, hi, hid⟩ := List.any_eq_true.mp (mem_callsTo hc)
    rw [Module.replaceAllUsesWith_eq_mapOperands, Module.ids_mapOperands, undefState,
      Module.ids_mapOperands, Module.mem_ids_removeInsts]
    exact ⟨List.mem_map.mpr ⟨i, hi, by simpa using hid⟩, hcp⟩
  rw [replaceUndefCall]
  dsimp only
  rw [Module.eraseInst_of_mem hpres]
  simp only [undefState, Module.replaceAllUsesWith_eq_mapOperands, Module.mapOperands_mapOperands,
    replace_undefSubst_call, ← Module.removeInsts_mapOperands, Module.removeInsts_removeInsts]
  rfl

section WellFormed

variable (hids : m.IdsUnique) (hnoargs : CallsTakeNoArgs m name)
include hids hnoargs

/-- The first loop deletes every call and collects exactly the users of the calls. -/
theorem undefCalls_ok (ord : UseOrder) :
    ∃ W, (callersOf ord m name).foldlM (replaceUndefCall (.undef ret)) (m, []) =
        .ok (undefState m ret (callsTo m name) [], W) ∧
      ∀ x, x ∈ W ↔ ∃ c ∈ callsTo m name, x ∈ m.instUsers (.inst c) := by
  obtain ⟨⟨m', W⟩, hloop, rfl, hW⟩ := foldlM_prefix_invariant
    (fun (Cp : List Nat) (st : Module × List Nat) => st.1 = undefState m ret Cp [] ∧
      ∀ x, x ∈ st.2 ↔ ∃ c ∈ Cp, x ∈ m.instUsers (.inst c))
    (callersOf ord m name) (m, []) ⟨undefState_nil.symm, by simp⟩ (by
      rintro Cp c Q ⟨_, W⟩ hL ⟨rfl, hW⟩
      have hc : c ∈ callsTo m name :=
        mem_callersOf.mp (show c ∈ callersOf ord m name by simp [hL])
      have hCp : ∀ c' ∈ Cp, c' ∈ callsTo m name := fun c' h' =>
        mem_callersOf.mp (show c' ∈ callersOf ord m name by simp [hL, h'])
      have hcp : c ∉ Cp := not_mem_of_nodup_append_cons (hL ▸ callersOf_nodup ord hids name)
      refine ⟨_, replaceUndefCall_step hc hcp W, rfl, fun x => ?_⟩
      simp only [mem_setInsertAll, mem_instUsers_undefState_call hids hnoargs hCp hcp, hW,
        List.mem_append, List.mem_singleton]
      constructor
      · rintro (h | ⟨c', hc', h⟩)
        · exact ⟨c, .inr rfl, h⟩
        · exact ⟨c', .inl hc', h⟩
      · rintro ⟨c', hc' | rfl, h⟩
        · exact .inr ⟨c', hc', h⟩
        · exact .inl h)
  refine ⟨W, ?_, fun x => ?_⟩
  · rw [hloop, undefState, undefState, Module.removeInsts_perm m (callersOf_perm ord m name),
      undefSubst_congr (fun j => mem_callersOf) (fun _ => Iff.rfl)]
  · rw [hW x]
    exact exists_congr fun c => and_congr_left fun _ => mem_callersOf

end WellFormed

/-- What holds inside a round once the prefix `Wp` of the work list is handled: `P` are the cmp
and cast instructions replaced in earlier rounds and `dead₀` the dead stores before the
round. -/
structure InRound (m : Module) (name : String) (ret : Ty) (P dead₀ Wp : List Nat)
    (st : Module × List Nat × List Nat) : Prop where
  state : st.1 = undefState m ret (callsTo m name) (P ++ Wp.filter (isCmpOrCastAt m))
  sound : ∀ x ∈ st.2.1, UsesReached m name x
  closed : ∀ j ∈ Wp, isCmpOrCastAt m j = true → j ∉ P →
    ∀ x ∈ m.instUsers (.inst j), x ∈ st.2.1
  dead : ∀ s, s ∈ st.2.2 ↔ s ∈ dead₀ ∨ (s ∈ Wp ∧ isStoreAt m s = true)
  progress : st.2.1 ≠ [] → ∃ j ∈ Wp, isCmpOrCastAt m j = true ∧ j ∉ P

/-- An element that is not a cmp or cast leaves the module and the next work list alone. -/
theorem InRound.extend_of_not_cmpCast {P dead₀ Wp : List Nat} {mc : Module}
    {next dead dead' : List Nat} {j : Nat}
    (hinv : InRound m name ret P dead₀ Wp (mc, next, dead))
    (hcc : isCmpOrCastAt m j = false)
    (hdead : ∀ s, s ∈ dead' ↔ s ∈ dead ∨ (s = j ∧ isStoreAt m j = true)) :
    InRound m name ret P dead₀ (Wp ++ [j]) (mc, next, dead') where
  state := by simpa [List.filter_append, hcc] using hinv.state
  sound := hinv.sound
  closed := by
    intro j' hj' hcc' hP x hx
    rcases List.mem_append.mp hj' with hj' | hj'
    · exact hinv.closed j' hj' hcc' hP x hx
    · rw [List.mem_singleton.mp hj', hcc] at hcc'; exact absurd hcc' (by simp)
  dead s := by
    rw [hdead, hinv.dead, List.mem_append, List.mem_singleton, or_and_right, or_assoc]
    exact or_congr_right (or_congr_right (and_congr_right fun h => by rw [h]))
  progress h := by
    obtain ⟨j', hj', hcc', hP⟩ := hinv.progress h
    exact ⟨j', List.mem_append_left _ hj', hcc', hP⟩

section WellFormed

variable (hids : m.IdsUnique) (hnoargs : CallsTakeNoArgs m name)
include hids hnoargs

/-- One element of the work list: a cmp or cast passes its users on and is replaced, a store
joins the dead stores. -/
theorem propagateUndef_step {P dead₀ Wp : List Nat} {st : Module × List Nat × List Nat}
    {j : Nat} (hinv : InRound m name ret P dead₀ Wp st) (hj : UsesReached m name j) :
    ∃ st', propagateUndef st j = .ok st' ∧ InRound m name ret P dead₀ (Wp ++ [j]) st' := by
  obtain ⟨i, hi, rfl, k, hk, hreach⟩ := hj
  obtain ⟨mc, next, dead⟩ := st
  set Q := P ++ Wp.filter (isCmpOrCastAt m)
  have hiC : i.id ∉ callsTo m name := not_mem_callsTo_of_operand hids hnoargs hi hk
  have hfind : m.inst? i.id = some i := Module.inst?_of_mem hids hi
  have hmc : mc = undefState m ret (callsTo m name) Q := hinv.state
  have hinst : mc.inst? i.id =
      some { i with operands := i.operands.map (undefSubst m ret (callsTo m name) Q) } := by
    rw [hmc, inst?_undefState hiC, hfind]; rfl
  have hcc : isCmpOrCastAt m i.id = i.op.isCmpOrCast := by simp [isCmpOrCastAt, hfind]
  have hst : isStoreAt m i.id = (i.op == .store) := by simp [isStoreAt, hfind]
  unfold propagateUndef
  rw [hinst]
  dsimp only
  by_cases hc : i.op.isCmpOrCast = true
  · rw [if_pos hc]
    refine ⟨_, rfl, ⟨?_, ?_, ?_, ?_, ?_⟩⟩
    · -- the cmp or cast joins the replaced instructions
      have hty : i.ty = tyOf m i.id := by simp [tyOf, hfind]
      simp only [hmc, hty, undefState, Module.replaceAllUsesWith_eq_mapOperands,
        Module.mapOperands_mapOperands, replace_undefSubst_cmpCast hiC, List.filter_append,
        hcc, hc, List.filter_cons_of_pos, List.filter_nil, Q, List.append_assoc]
    · -- its users carry a reached operand
      intro x hx
      rcases mem_setInsertAll.mp hx with hx | hx
      · obtain ⟨⟨i', hi', rfl, -, hv⟩, -⟩ := mem_instUsers_undefState.mp (hmc ▸ hx)
        exact ⟨i', hi', rfl, i.id, hv, .cmpCast hi hc hk hreach⟩
      · exact hinv.sound x hx
    · intro j hj hccj hjP x hx
      rcases List.mem_append.mp hj with hj | hj
      · exact mem_setInsertAll.mpr (.inr (hinv.closed j hj hccj hjP x hx))
      · obtain rfl := List.mem_singleton.mp hj
        by_cases hQ : i.id ∈ Wp.filter (isCmpOrCastAt m)
        · exact mem_setInsertAll.mpr
            (.inr (hinv.closed _ (List.mem_filter.mp hQ).1 hccj hjP x hx))
        · obtain ⟨i', hi', rfl, hv⟩ := Module.mem_instUsers.mp hx
          refine mem_setInsertAll.mpr (.inl (hmc ▸ mem_instUsers_undefState.mpr ?_))
          exact ⟨⟨i', hi', rfl, not_mem_callsTo_of_operand hids hnoargs hi' hv, hv⟩, hiC,
            by simp [Q, hjP, hQ]⟩
    · -- a cmp or cast is no store, so the dead stores stay
      have hns : i.op ≠ .store := fun h => by simp [h, Opcode.isCmpOrCast] at hc
      intro s
      have hC : ¬ (s = i.id ∧ isStoreAt m s = true) := fun ⟨h, h'⟩ => by
        simp [h, hst, hns] at h'
      rw [hinv.dead, List.mem_append, List.mem_singleton, or_and_right, or_iff_left hC]
    · intro hne
      by_cases hnext : next = []
      · obtain ⟨x, hx⟩ := List.exists_mem_of_ne_nil _ hne
        rcases mem_setInsertAll.mp hx with hx | hx
        · obtain ⟨-, -, hQ⟩ := mem_instUsers_undefState.mp (hmc ▸ hx)
          exact ⟨i.id, by simp, hcc ▸ hc, fun h => hQ (List.mem_append_left _ h)⟩
        · simp [hnext] at hx
      · obtain ⟨j, hj, h⟩ := hinv.progress hnext
        exact ⟨j, List.mem_append_left _ hj, h⟩
  · rw [if_neg hc]
    have hcc' : isCmpOrCastAt m i.id = false := by simpa [hcc] using hc
    split_ifs with hs <;>
      exact ⟨_, rfl, hinv.extend_of_not_cmpCast hcc' fun s => by simp [hst, hs]⟩

end WellFormed

/-- What holds between rounds: `P` are the cmp and cast instructions replaced so far and `D`
the elements of the rounds done. -/
structure RoundInv (m : Module) (name : String) (ret : Ty) (mc : Module)
    (W dead P D : List Nat) : Prop where
  state : mc = undefState m ret (callsTo m name) P
  processed : ∀ j ∈ D, isCmpOrCastAt m j = true → j ∈ P
  sound : ∀ x ∈ D ++ W, UsesReached m name x
  callsClosed : ∀ c ∈ callsTo m name, ∀ x ∈ m.instUsers (.inst c), x ∈ D ++ W
  processedClosed : ∀ j ∈ P, ∀ x ∈ m.instUsers (.inst j), x ∈ D ++ W
  dead : ∀ s, s ∈ dead ↔ s ∈ D ∧ isStoreAt m s = true

/-- The cmp and cast instructions of `l` not yet replaced: the measure of the `while` loop, for
any `l` that holds every cmp and cast the calls reach (the module's instructions, or those of the
function the calls are in). -/
def unprocessed (l : List Inst) (P : List Nat) : Nat :=
  l.countP fun i => i.op.isCmpOrCast && decide (i.id ∉ P)

theorem countP_lt_of_imp {α : Type} {p q : α → Bool} {l : List α} {a : α}
    (himp : ∀ x ∈ l, q x → p x) (ha : a ∈ l) (hp : p a) (hq : ¬ q a) :
    l.countP q < l.countP p := by
  induction l with
  | nil => simp at ha
  | cons b l ih =>
    have hle := List.countP_mono_left fun x hx => himp x (List.mem_cons_of_mem b hx)
    simp only [List.countP_cons]
    rcases List.mem_cons.mp ha with rfl | ha
    · simp [hp, hq]; omega
    · have := ih (fun x hx => himp x (List.mem_cons_of_mem b hx)) ha
      have hb : (if q b then 1 else 0) ≤ (if p b then 1 else 0) := by
        by_cases hqb : q b <;> simp [hqb, himp b (List.mem_cons_self b l)]
      omega

theorem unprocessed_le {l : List Inst} {P P' : List Nat} (h : ∀ j ∈ P, j ∈ P') :
    unprocessed l P' ≤ unprocessed l P :=
  List.countP_mono_left fun i _ => by simpa using fun hc hP => ⟨hc, fun h' => hP (h _ h')⟩

theorem unprocessed_lt {l : List Inst} {P P' : List Nat} (h : ∀ j ∈ P, j ∈ P') {i : Inst}
    (hi : i ∈ l) (hc : i.op.isCmpOrCast = true) (hP : i.id ∉ P) (hP' : i.id ∈ P') :
    unprocessed l P' < unprocessed l P :=
  countP_lt_of_imp (fun i _ => by simpa using fun hc hP => ⟨hc, fun h' => hP (h _ h')⟩) hi
    (by simp [hc, hP]) (by simp [hP'])

/-- Before the first round, the work list holds exactly the users of the calls. -/
theorem RoundInv.init {W : List Nat}
    (hW : ∀ x, x ∈ W ↔ ∃ c ∈ callsTo m name, x ∈ m.instUsers (.inst c)) :
    RoundInv m name ret (undefState m ret (callsTo m name) []) W [] [] [] := by
  refine ⟨rfl, by simp, fun x hx => ?_, fun c hc x hx => by simpa using (hW x).mpr ⟨c, hc, hx⟩,
    by simp, by simp⟩
  obtain ⟨c, hc, hx⟩ := (hW x).mp (by simpa using hx)
  obtain ⟨i, hi, rfl, hv⟩ := Module.mem_instUsers.mp hx
  exact ⟨i, hi, rfl, c, hv, .call hc⟩

/-- Two more tests than the cmp and cast instructions of `l` suffice from the start. -/
theorem unprocessed_init_lt (l : List Inst) {k : Nat}
    (hk : l.countP (·.op.isCmpOrCast) ≤ k) {W : List Nat} :
    unprocessed l [] + 1 < k + 2 + (if W.isEmpty then 1 else 0) := by
  have : unprocessed l [] = l.countP (·.op.isCmpOrCast) := by simp [unprocessed]
  split <;> omega

section WellFormed

variable (hids : m.IdsUnique) (hnoargs : CallsTakeNoArgs m name)
include hids hnoargs

/-- One round: the elements of the work list join the done ones, the cmp and cast instructions
among them join the replaced ones, and a round that leaves work behind replaced one of them
for the first time. -/
theorem undefRound_ok {mc : Module} {W dead P D : List Nat}
    (hinv : RoundInv m name ret mc W dead P D) :
    ∃ mc' next dead', W.foldlM propagateUndef (mc, [], dead) = .ok (mc', next, dead') ∧
      RoundInv m name ret mc' next dead' (P ++ W.filter (isCmpOrCastAt m)) (D ++ W) ∧
      (next ≠ [] → ∃ j ∈ W, isCmpOrCastAt m j = true ∧ j ∉ P) := by
  obtain ⟨⟨mc', next, dead'⟩, hloop, hin⟩ := foldlM_prefix_invariant
    (InRound m name ret P dead) W (mc, [], dead)
    ⟨by simpa using hinv.state, by simp, by simp, by simp, by simp⟩
    (fun Wp j rest st hW hst =>
      propagateUndef_step hids hnoargs hst (hinv.sound j (by simp [hW])))
  refine ⟨mc', next, dead', hloop, ⟨hin.state, ?_, ?_, ?_, ?_, ?_⟩, hin.progress⟩
  · intro j hj hcc
    rcases List.mem_append.mp hj with hj | hj
    · exact List.mem_append_left _ (hinv.processed j hj hcc)
    · exact List.mem_append_right _ (List.mem_filter.mpr ⟨hj, hcc⟩)
  · intro x hx
    rcases List.mem_append.mp hx with hx | hx
    · exact hinv.sound x hx
    · exact hin.sound x hx
  · intro c hc x hx
    exact List.mem_append_left _ (hinv.callsClosed c hc x hx)
  · intro j hj x hx
    by_cases hjP : j ∈ P
    · exact List.mem_append_left _ (hinv.processedClosed j hjP x hx)
    · obtain ⟨hjW, hcc⟩ := List.mem_filter.mp ((List.mem_append.mp hj).resolve_left hjP)
      exact List.mem_append_right _ (hin.closed j hjW hcc hjP x hx)
  · intro s
    rw [hin.dead, hinv.dead, List.mem_append, or_and_right]

/-- The `while` loop ends, given one round more than the cmp and cast instructions left among
those of `l`, when `l` holds every cmp and cast the calls reach. -/
theorem undefRounds_ok {l : List Inst}
    (hl : ∀ i ∈ m.insts, i.op.isCmpOrCast = true → Reached m name i.id → i ∈ l) :
    ∀ (fuel : Nat) {mc : Module} {W dead P D : List Nat},
    RoundInv m name ret mc W dead P D →
    unprocessed l P + 1 < fuel + (if W.isEmpty then 1 else 0) →
    ∃ m₂ dead₂ P₂ D₂, undefRounds fuel mc W dead = .ok (m₂, dead₂) ∧
      RoundInv m name ret m₂ [] dead₂ P₂ D₂
  | 0, _, W, _, _, _, _, hfuel => by cases W <;> simp at hfuel
  | fuel + 1, mc, W, dead, P, D, hinv, hfuel => by
    by_cases hW : W.isEmpty
    · refine ⟨mc, dead, P, D, by simp [undefRounds, hW], ?_⟩
      simpa [List.isEmpty_iff.mp hW] using hinv
    · obtain ⟨mc', next, dead', hround, hinv', hprog⟩ := undefRound_ok hids hnoargs hinv
      have hsub : ∀ j ∈ P, j ∈ P ++ W.filter (isCmpOrCastAt m) :=
        fun j hj => List.mem_append_left _ hj
      have hle := unprocessed_le (l := l) hsub
      have hfuel' : unprocessed l (P ++ W.filter (isCmpOrCastAt m)) + 1 <
          fuel + (if next.isEmpty then 1 else 0) := by
        by_cases hnext : next.isEmpty
        · simp only [hW, hnext, Bool.false_eq_true, if_true, if_false] at hfuel ⊢; omega
        · obtain ⟨j, hjW, hcc, hjP⟩ := hprog (by simpa using hnext)
          obtain ⟨i, hi, rfl, k, hk, hr⟩ := hinv.sound j (List.mem_append_right _ hjW)
          have hic : i.op.isCmpOrCast = true := by
            simpa [isCmpOrCastAt, Module.inst?_of_mem hids hi] using hcc
          have hlt := unprocessed_lt hsub (hl i hi hic (.cmpCast hi hic hk hr)) hic hjP
            (List.mem_append_right _ (List.mem_filter.mpr ⟨hjW, hcc⟩))
          simp only [hW, hnext, Bool.false_eq_true, if_false] at hfuel ⊢; omega
      obtain ⟨m₂, dead₂, P₂, D₂, hrest, hfin⟩ := undefRounds_ok hl fuel hinv' hfuel'
      refine ⟨m₂, dead₂, P₂, D₂, ?_, hfin⟩
      simp only [undefRounds, hW, if_false, hround]
      exact hrest

end WellFormed

/-- One more test of the loop condition changes nothing once the loop has ended. -/
theorem undefRounds_succ_of_ok {r : Module × List Nat} :
    ∀ {fuel : Nat} {mc : Module} {W dead : List Nat},
      undefRounds fuel mc W dead = .ok r → undefRounds (fuel + 1) mc W dead = .ok r
  | 0, _, _, _, h => by simp [undefRounds] at h
  | fuel + 1, mc, W, dead, h => by
    rw [undefRounds] at h ⊢
    split_ifs at h ⊢ with hW
    · exact h
    · simp only [bind, Except.bind] at h ⊢
      split at h
      · cases h
      · exact undefRounds_succ_of_ok h

/-- The result of the loop does not depend on the bound on its tests, once the bound is
enough. -/
theorem undefRounds_mono {fuel fuel' : Nat} {mc : Module} {W dead : List Nat}
    {r : Module × List Nat} (hle : fuel ≤ fuel') (h : undefRounds fuel mc W dead = .ok r) :
    undefRounds fuel' mc W dead = .ok r := by
  obtain ⟨d, rfl⟩ := Nat.exists_eq_add_of_le hle
  induction d with
  | zero => exact h
  | succ d ih => exact undefRounds_succ_of_ok (ih (by omega))

/-- The `while` loop of `ReplaceUndefIntrinsic` ends, on every use graph and whatever cycles its
cmp and cast instructions form, after at most two more tests of its condition than there are cmp
and cast instructions in a function `f` that holds every one the calls reach (the function the
calls are in, since operands name instructions of their own function), with the result
`undefPropagation` gives. -/
theorem undefRounds_le_cmpCast_count (ord : UseOrder) (function : Function) (m : Module)
    (hids : m.IdsUnique) (hnoargs : CallsTakeNoArgs m function.name) (f : Function)
    (hf : ∀ i ∈ m.insts, i.op.isCmpOrCast = true → Reached m function.name i.id → i ∈ f.insts) :
    ∃ m₁ work r, (callersOf ord m function.name).foldlM
        (replaceUndefCall (.undef function.type.ret)) (m, []) = .ok (m₁, work) ∧
      undefPropagation ord function m = .ok r ∧
      ∀ fuel, f.insts.countP (·.op.isCmpOrCast) + 2 ≤ fuel →
        undefRounds fuel m₁ work [] = .ok r := by
  obtain ⟨W, hcalls, hW⟩ := @undefCalls_ok m function.name function.type.ret hids hnoargs ord
  have hinit : RoundInv m function.name function.type.ret _ W [] [] [] := RoundInv.init hW
  obtain ⟨m₂, dead, -, -, hrounds, -⟩ := undefRounds_ok hids hnoargs hf _ hinit
    (unprocessed_init_lt f.insts le_rfl)
  obtain ⟨m₂', dead', -, -, hrounds', -⟩ := undefRounds_ok hids hnoargs (fun i hi _ _ => hi)
    (m.insts.length + 2) hinit (unprocessed_init_lt m.insts (List.countP_le_length _))
  -- both bounds end the loop, so with the larger one it returns both results
  have hsame := (undefRounds_mono (le_max_left _ _) hrounds).symm.trans
    (undefRounds_mono (le_max_right _ _) hrounds')
  refine ⟨_, W, (m₂, dead), hcalls, ?_, fun fuel hfuel => undefRounds_mono hfuel hrounds⟩
  simp only [undefPropagation, hcalls]
  exact hrounds'.trans hsame.symm

/-- A function with a cmp and a cast that use each other in an unreachable block, the cmp
also using `u = __remill_undefined_64()`: `%3 = icmp eq %1, %4` and `%4 = zext %3`. -/
def cmpCastCycleSub : Function where
  name := "sub_401000"
  type := { ret := .memory, params := [.memory, .state, .int 64] }
  linkage := .external
  attrs := []
  blocks :=
    [ { label := 0
        insts :=
          [ { id := 1, op := .call, ty := .int 64, operands := [.func "__remill_undefined_64"] },
            { id := 2, op := .ret, ty := .void, operands := [.arg 0] } ] },
      { label := 1
        insts :=
          [ { id := 3, op := .cmp .eq, ty := .int 1, operands := [.inst 1, .inst 4] },
            { id := 4, op := .cast .zext, ty := .int 64, operands := [.inst 3] },
            { id := 5, op := .br 1, ty := .void, operands := [] } ] } ]

/-- `cmpCastCycleSub` with the declaration of the intrinsic it calls. -/
def cmpCastCycle : Module where
  functions := [undefined64, cmpCastCycleSub]
  globals := []
  constants := []

theorem cmpCastCycle_ends_in_four_tests :
    ∃ m₁ work r, (callersOf layoutOrder cmpCastCycle undefined64.name).foldlM
        (replaceUndefCall (.undef undefined64.type.ret)) (cmpCastCycle, []) = .ok (m₁, work) ∧
      undefPropagation layoutOrder undefined64 cmpCastCycle = .ok r ∧
      ∀ fuel, cmpCastCycleSub.insts.countP (·.op.isCmpOrCast) + 2 ≤ fuel →
        undefRounds fuel m₁ work [] = .ok r :=
  undefRounds_le_cmpCast_count layoutOrder undefined64 cmpCastCycle (by decide) (by decide)
    cmpCastCycleSub (fun i hi _ _ => hi)

/-- The bound is reached on the cycle: the cmp is handed to a round twice, and three tests of the
condition are not enough. -/
example : ((callersOf layoutOrder cmpCastCycle undefined64.name).foldlM
      (replaceUndefCall (.undef undefined64.type.ret)) (cmpCastCycle, [])).bind
      (fun p => undefRounds 3 p.1 p.2 []) = .error "work list not empty after the last round" :=
  rfl

section Ids

variable (hids : m.IdsUnique)
include hids

/-- When the work list is empty, every user of a reached instruction was handled. -/
theorem RoundInv.users_done {mc : Module} {dead P D : List Nat}
    (hinv : RoundInv m name ret mc [] dead P D) {j : Nat} (hj : Reached m name j) :
    ∀ x ∈ m.instUsers (.inst j), x ∈ D := by
  induction hj with
  | call hc => simpa using hinv.callsClosed _ hc
  | @cmpCast i k hi hcc hk _ ih =>
    have hiD := ih i.id (Module.mem_instUsers.mpr ⟨i, hi, rfl, hk⟩)
    have hiP := hinv.processed _ hiD (by simp [isCmpOrCastAt, Module.inst?_of_mem hids hi, hcc])
    simpa using hinv.processedClosed _ hiP

/-- When the work list is empty, the dead stores are exactly the reached stores. -/
theorem RoundInv.dead_iff {mc : Module} {dead P D : List Nat}
    (hinv : RoundInv m name ret mc [] dead P D) (s : Nat) :
    s ∈ dead ↔ ReachedStore m name s := by
  rw [hinv.dead]
  constructor
  · rintro ⟨hsD, hst⟩
    obtain ⟨i, hi, rfl, k, hk, hr⟩ := hinv.sound s (by simpa using hsD)
    exact ⟨i, hi, rfl, by simpa [isStoreAt, Module.inst?_of_mem hids hi] using hst, k, hk, hr⟩
  · rintro ⟨i, hi, rfl, hop, k, hk, hr⟩
    exact ⟨hinv.users_done hids hr _ (Module.mem_instUsers.mpr ⟨i, hi, rfl, hk⟩),
      by simp [isStoreAt, Module.inst?_of_mem hids hi, hop]⟩

/-- Only calls are calls of the intrinsic. -/
theorem not_mem_callsTo_of_op {i : Inst} (hi : i ∈ m.insts) (hop : i.op ≠ .call) :
    i.id ∉ callsTo m name := by
  intro hc
  obtain ⟨i', hi', hid⟩ := List.mem_map.mp hc
  obtain ⟨hi', hcall⟩ := List.mem_filter.mp hi'
  obtain rfl := List.inj_on_of_nodup_map hids hi' hi hid
  simp_all

end Ids

/-- `ReplaceUndefIntrinsic` hands to its erase loop exactly the stores with a reached operand,
stored value or address: its propagation ends for every module, and when no store was collected
twice the pass returns the module with exactly those stores erased. -/
theorem replaceUndefIntrinsic_erases_reached_stores
    (ord : UseOrder)
    (function : Function)
    (m : Module)
    (hids : m.IdsUnique)
    (hnoargs : CallsTakeNoArgs m function.name) :
    ∃ m₂ dead, undefPropagation ord function m = .ok (m₂, dead) ∧
      (∀ s, s ∈ dead ↔ ReachedStore m function.name s) ∧
      (dead.Nodup → ∃ m', replaceUndefIntrinsic ord function m = .ok m' ∧
        ∀ i ∈ m.insts, i.op = .store →
          (i.id ∈ m'.insts.map Inst.id ↔ ¬ ReachedStore m function.name i.id)) := by
  obtain ⟨W, hcalls, hW⟩ := @undefCalls_ok m function.name function.type.ret hids hnoargs ord
  obtain ⟨m₂, dead, P, D, hrounds, hinv⟩ := undefRounds_ok hids hnoargs (fun i hi _ _ => hi)
    (m.insts.length + 2) (RoundInv.init hW) (unprocessed_init_lt m.insts (List.countP_le_length _))
  have hprop : undefPropagation ord function m = .ok (m₂, dead) := by
    simp only [undefPropagation, hcalls]; exact hrounds
  have hdead := hinv.dead_iff hids
  -- the dead stores are stores of the module, so still present after the propagation
  have hpres : ∀ i ∈ m.insts, i.op = .store → i.id ∈ m₂.insts.map Inst.id := by
    intro i hi hop
    rw [hinv.state, undefState, Module.ids_mapOperands, Module.mem_ids_removeInsts]
    exact ⟨List.mem_map.mpr ⟨i, hi, rfl⟩, not_mem_callsTo_of_op hids hi (by simp [hop])⟩
  refine ⟨m₂, dead, hprop, hdead, fun hnd => ⟨m₂.removeInsts dead, ?_, fun i hi hop => ?_⟩⟩
  · simp only [replaceUndefIntrinsic, hprop]
    refine Module.foldlM_eraseInst_of_nodup hnd fun s hs => ?_
    obtain ⟨i, hi, rfl, hop, -⟩ := (hdead s).mp hs
    exact hpres i hi hop
  · rw [Module.mem_ids_removeInsts, hdead]
    exact ⟨fun h => h.2, fun h => ⟨hpres i hi hop, h⟩⟩

/-- Two stores fed by `u = __remill_undefined_64()`: the first stores the ordinary argument at
address `inttoptr u`; the second stores `zext (u == arg)` at the ordinary address
`inttoptr arg`. -/
def undefFeedsStores : Module where
  functions :=
    [ undefined64,
      { name := "sub_401000"
        type := { ret := .memory, params := [.memory, .state, .int 64] }
        linkage := .external
        attrs := []
        blocks :=
          [ { label := 0
              insts :=
                [ { id := 1, op := .call, ty := .int 64,
                    operands := [.func "__remill_undefined_64"] },
                  { id := 2, op := .cast .inttoptr, ty := .ptr (.int 64), operands := [.inst 1] },
                  { id := 3, op := .store, ty := .void, operands := [.arg 2, .inst 2] },
                  { id := 4, op := .cmp .eq, ty := .int 1, operands := [.inst 1, .arg 2] },
                  { id := 5, op := .cast .zext, ty := .int 64, operands := [.inst 4] },
                  { id := 6, op := .cast .inttoptr, ty := .ptr (.int 64), operands := [.arg 2] },
                  { id := 7, op := .store, ty := .void, operands := [.inst 5, .inst 6] },
                  { id := 8, op := .ret, ty := .void, operands := [.arg 0] } ] } ] } ]
  globals := []
  constants := []

/-- Both stores are erased: the one whose stored value is an ordinary argument, and the one
whose stored value compares `u` against an ordinary argument. -/
theorem replaceUndefIntrinsic_erases_defined_stores :
    (replaceUndefIntrinsic layoutOrder undefined64 undefFeedsStores).map (·.insts.map Inst.id) =
      .ok [2, 4, 5, 6, 8] := rfl

theorem undefFeedsStores_reached_erased :
    ∃ m', replaceUndefIntrinsic layoutOrder undefined64 undefFeedsStores = .ok m' ∧
      ∀ i ∈ undefFeedsStores.insts, i.op = .store →
        (i.id ∈ m'.insts.map Inst.id ↔ ¬ ReachedStore undefFeedsStores undefined64.name i.id) := by
  obtain ⟨m₂, dead, hprop, -, hok⟩ := replaceUndefIntrinsic_erases_reached_stores layoutOrder
    undefined64 undefFeedsStores (by decide) (by decide)
  have hrun : (undefPropagation layoutOrder undefined64 undefFeedsStores).map Prod.snd =
      .ok [3, 7] := rfl
  rw [hprop] at hrun
  simp only [Except.map, Except.ok.injEq] at hrun
  exact hok (hrun ▸ by decide)

/-! ### The module the propagation leaves -/

/-- A round adds to the replaced instructions only cmp and cast instructions that are
reached. -/
theorem RoundInv.replaced_reached (hids : m.IdsUnique) {mc : Module} {W dead P D : List Nat}
    (hinv : RoundInv m name ret mc W dead P D)
    (hP : ∀ j ∈ P, isCmpOrCastAt m j = true ∧ Reached m name j) :
    ∀ j ∈ P ++ W.filter (isCmpOrCastAt m), isCmpOrCastAt m j = true ∧ Reached m name j := by
  intro j hj
  rcases List.mem_append.mp hj with hj | hj
  · exact hP j hj
  · obtain ⟨hjW, hcc⟩ := List.mem_filter.mp hj
    obtain ⟨i, hi, rfl, k, hk, hr⟩ := hinv.sound _ (List.mem_append_right _ hjW)
    exact ⟨hcc, .cmpCast hi (by simpa [isCmpOrCastAt, Module.inst?_of_mem hids hi] using hcc)
      hk hr⟩

section ClosedForm

variable (hids : m.IdsUnique) (hnoargs : CallsTakeNoArgs m name)
include hids hnoargs

/-- Whenever the rounds end, they end with an empty work list and with only reached cmp and
cast instructions replaced, if that held at the start. -/
theorem undefRounds_replaced_reached :
    ∀ (fuel : Nat) {mc : Module} {W dead P D : List Nat} {r : Module × List Nat},
    RoundInv m name ret mc W dead P D →
    (∀ j ∈ P, isCmpOrCastAt m j = true ∧ Reached m name j) →
    undefRounds fuel mc W dead = .ok r →
    ∃ P₂ D₂, RoundInv m name ret r.1 [] r.2 P₂ D₂ ∧
      ∀ j ∈ P₂, isCmpOrCastAt m j = true ∧ Reached m name j
  | 0, _, _, _, _, _, _, _, _, h => by cases h
  | fuel + 1, mc, W, dead, P, D, r, hinv, hP, h => by
    by_cases hW : W.isEmpty
    · rw [undefRounds, if_pos hW] at h
      cases h
      exact ⟨P, D, by simpa [List.isEmpty_iff.mp hW] using hinv, hP⟩
    · obtain ⟨mc', next, dead', hround, hinv', -⟩ := undefRound_ok hids hnoargs hinv
      rw [undefRounds, if_neg hW, hround] at h
      exact undefRounds_replaced_reached fuel hinv' (hinv.replaced_reached hids hP) h

end ClosedForm

/-- The `while` loop of `ReplaceUndefIntrinsic` ends, on every module, with the calls deleted,
every use of a call replaced by `undef` of the intrinsic's return type, every use of a cmp or
cast reached from a call by `undef` of that instruction's own type, and every other operand as
it was. -/
theorem undefPropagation_eq_undefState
    (ord : UseOrder)
    (function : Function)
    (m : Module)
    (hids : m.IdsUnique)
    (hnoargs : CallsTakeNoArgs m function.name) :
    ∃ P dead, undefPropagation ord function m =
        .ok (undefState m function.type.ret (callsTo m function.name) P, dead) ∧
      ∀ j, j ∈ P ↔ isCmpOrCastAt m j = true ∧ Reached m function.name j := by
  obtain ⟨W, hcalls, hW⟩ := @undefCalls_ok m function.name function.type.ret hids hnoargs ord
  have hinit : RoundInv m function.name function.type.ret _ W [] [] [] := RoundInv.init hW
  obtain ⟨m₂, dead, -, -, hrounds, -⟩ := undefRounds_ok hids hnoargs (fun i hi _ _ => hi)
    (m.insts.length + 2) hinit (unprocessed_init_lt m.insts (List.countP_le_length _))
  obtain ⟨P, D, hinv, hP⟩ :=
    undefRounds_replaced_reached hids hnoargs _ hinit (by simp) hrounds
  refine ⟨P, dead, ?_, fun j => ⟨hP j, fun ⟨hcc, hr⟩ => ?_⟩⟩
  · rw [← hinv.state]
    simp only [undefPropagation, hcalls]
    exact hrounds
  · cases hr with
    | call hc =>
      -- a call of the intrinsic is no cmp or cast
      cases hi : m.inst? j with
      | none => simp [isCmpOrCastAt, hi] at hcc
      | some i =>
        obtain ⟨him, rfl⟩ := Module.inst?_eq_some hi
        exact absurd hc (not_mem_callsTo_of_op hids him fun h => by
          simp [isCmpOrCastAt, hi, h, Opcode.isCmpOrCast] at hcc)
    | cmpCast hi _ hk hrk =>
      -- a reached cmp or cast uses a reached instruction, so a round handled and replaced it
      exact hinv.processed _ (hinv.users_done hids hrk _ (Module.mem_instUsers.mpr
        ⟨_, hi, rfl, hk⟩)) hcc

theorem undefFeedsStores_propagation :
    ∃ P dead, undefPropagation layoutOrder undefined64 undefFeedsStores =
        .ok (undefState undefFeedsStores undefined64.type.ret
          (callsTo undefFeedsStores undefined64.name) P, dead) ∧
      ∀ j, j ∈ P ↔ isCmpOrCastAt undefFeedsStores j = true ∧
        Reached undefFeedsStores undefined64.name j :=
  undefPropagation_eq_undefState layoutOrder undefined64 undefFeedsStores (by decide) (by decide)

end Undef

end Optimize
end Mcsema
