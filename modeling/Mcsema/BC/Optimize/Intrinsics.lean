import Mcsema.IR.Rewrite

/-!
# mcsema: removing the remill intrinsics (`RemoveIntrinsics`)

`RemoveIntrinsics` erases `llvm.used`, turns a declared `__remill_mark_as_used` into an
always-inline no-op definition, and calls `RemoveFunction(name)` on six intrinsic names.
`RemoveFunction(name)` gives the function internal linkage and then deletes it only when it
has no uses left.

**Callers.**  `CallersOf(func)` lists the calls of `func` in the order of its use list, which
the optimizer does not control; `callersOf` takes that order as a parameter (`UseOrder`), so
every result about a caller loop holds for every order.

**Results.**
* `removeIntrinsics_internal_declaration`: on a module whose declarations all have external
  linkage, a `__remill_function_return` that is still called stays a declaration with internal
  linkage, which the LLVM verifier rejects.
* `removeIntrinsics_not_dangling`: on a module where nothing uses `llvm.used`, no operand is left
  naming a function or global that is gone.
-/

namespace Mcsema
namespace Optimize

open IR

section Intrinsics

/-- Every declaration has external or extern-weak linkage (an LLVM verifier rule). -/
def DeclarationsExternal (m : Module) : Prop :=
  ∀ f ∈ m.functions, f.isDeclaration = true →
    f.linkage = .external ∨ f.linkage = .externalWeak

instance (m : Module) : Decidable (DeclarationsExternal m) :=
  inferInstanceAs (Decidable (∀ f ∈ m.functions, _))

/-- The calls whose callee is `name`, in layout order.  A call to an intrinsic never passes the
intrinsic itself as an argument (no parameter has that type), so each call is one user. -/
def callsTo (m : Module) (name : String) : List Nat :=
  (m.insts.filter fun i => i.op == .call && i.operands.head? == some (.func name)).map Inst.id

/-- The order of a use list.  LLVM lists the users of a value in an order set by the history of
the module rather than its layout, so `CallersOf` is modelled for every order: any permutation
of the calls, chosen per module and callee. -/
structure UseOrder where
  order : Module → String → List Nat
  perm : ∀ m name, (order m name).Perm (callsTo m name)

/-- `CallersOf(func)`: the calls of `func`, in use-list order. -/
def callersOf (ord : UseOrder) (m : Module) (name : String) : List Nat :=
  ord.order m name

theorem mem_callsTo {m : Module} {name : String} {c : Nat} (hc : c ∈ callsTo m name) :
    m.insts.any (·.id == c) = true := by
  obtain ⟨i, hi, rfl⟩ := List.mem_map.mp hc
  exact List.any_eq_true.mpr ⟨i, (List.mem_filter.mp hi).1, by simp⟩

theorem callsTo_nodup {m : Module} (hids : m.IdsUnique) (name : String) :
    (callsTo m name).Nodup :=
  hids.sublist ((List.filter_sublist _).map _)

theorem callersOf_perm (ord : UseOrder) (m : Module) (name : String) :
    (callersOf ord m name).Perm (callsTo m name) :=
  ord.perm m name

theorem mem_callersOf {ord : UseOrder} {m : Module} {name : String} {c : Nat} :
    c ∈ callersOf ord m name ↔ c ∈ callsTo m name :=
  (callersOf_perm ord m name).mem_iff

theorem callersOf_nodup (ord : UseOrder) {m : Module} (hids : m.IdsUnique) (name : String) :
    (callersOf ord m name).Nodup :=
  (callersOf_perm ord m name).nodup_iff.mpr (callsTo_nodup hids name)

/-- The use-list order that lists calls in layout order. -/
def layoutOrder : UseOrder :=
  ⟨callsTo, fun _ _ => List.Perm.refl _⟩

/-- The use-list order that lists calls against their layout. -/
def layoutReversed : UseOrder :=
  ⟨fun m name => (callsTo m name).reverse, fun _ _ => List.reverse_perm _⟩

/-- `RemoveFunction(llvm::Function *)`: delete the function if nothing uses it. -/
def removeFunction (name : String) (m : Module) : Module :=
  if !m.hasNUsesOrMore (.func name) 1 then m.eraseFunction name else m

/-- `RemoveFunction(const char *)`: internal linkage first, then `RemoveFunction(func)`. -/
def removeFunctionByName (name : String) (m : Module) : Module :=
  match m.getFunction name with
  | some _ => removeFunction name (m.setFunctionLinkage name .internal)
  | none => m

/-- The body `RemoveIntrinsics` gives a declared `__remill_mark_as_used`: one `ret void`. -/
def markAsUsedBody (m : Module) : List Block :=
  [{ label := 0, insts := [{ id := m.freshId, op := .ret, ty := .void, operands := [] }] }]

/-- The always-inline no-op definition of a declared `__remill_mark_as_used`. -/
def defineMarkAsUsed (m : Module) (f : Function) : Function :=
  { f with linkage := .internal
           attrs := (f.attrs.filter (· != .noInline)) ++ [.inlineHint, .alwaysInline]
           blocks := markAsUsedBody m }

/-- `RemoveIntrinsics`. -/
def removeIntrinsics (m : Module) : Module :=
  let m := match m.getGlobalVariable "llvm.used" with
    | some _ => m.eraseGlobal "llvm.used"
    | none => m
  let m := match m.getFunction "__remill_mark_as_used" with
    | some f =>
      if f.isDeclaration then
        { m with functions := m.functions.map fun g =>
            if g.name = "__remill_mark_as_used" then defineMarkAsUsed m g else g }
      else m
    | none => m
  [ "__remill_intrinsics", "__remill_basic_block", "__remill_mark_as_used",
    "__remill_defer_inlining", "__remill_function_return", "__remill_mark_as_used" ].foldl
    (fun m name => removeFunctionByName name m) m

/-- A lifted function that still calls the declared `__remill_function_return`. -/
def functionReturnStillCalled : Module where
  functions :=
    [ { name := "sub_401000"
        type := { ret := .ptr (.named "Memory"),
                  params := [.ptr (.named "State"), .int 64, .ptr (.named "Memory")] }
        linkage := .external
        attrs := []
        blocks :=
          [ { label := 0
              insts :=
                [ { id := 1, op := .call, ty := .ptr (.named "Memory"),
                    operands := [.func "__remill_function_return", .arg 0, .arg 1, .arg 2] },
                  { id := 2, op := .ret, ty := .void, operands := [.inst 1] } ] } ] },
      { name := "__remill_function_return"
        type := { ret := .ptr (.named "Memory"),
                  params := [.ptr (.named "State"), .int 64, .ptr (.named "Memory")] }
        linkage := .external
        attrs := []
        blocks := [] } ]
  globals := []
  constants := []

/-- `RemoveIntrinsics` leaves the still-called `__remill_function_return` a declaration with
internal linkage. -/
theorem removeIntrinsics_internal_declaration :
    DeclarationsExternal functionReturnStillCalled ∧
      ¬ DeclarationsExternal (removeIntrinsics functionReturnStillCalled) := by
  decide

/-! ### `RemoveIntrinsics` never leaves a dangling reference -/

instance (m : Module) : Decidable m.Dangling :=
  decidable_of_iff (m.operands.any fun v => match v with
      | .global n => (m.getGlobalVariable n).isNone
      | .func n => (m.getFunction n).isNone
      | _ => false) (by
    simp only [List.any_eq_true, Module.Dangling]
    refine exists_congr fun v => and_congr_right fun _ => ?_
    cases v <;> simp)

theorem getFunction_ne_none {m : Module} {n : String} :
    m.getFunction n ≠ none ↔ ∃ f ∈ m.functions, f.name = n := by
  simp [Module.getFunction, ← Option.isSome_iff_ne_none, List.find?_isSome]

theorem getGlobalVariable_ne_none {m : Module} {n : String} :
    m.getGlobalVariable n ≠ none ↔ ∃ g ∈ m.globals, g.name = n := by
  simp [Module.getGlobalVariable, ← Option.isSome_iff_ne_none, List.find?_isSome]

/-- A rewrite that only drops operand slots, and keeps every function and global a remaining
slot names, leaves no reference dangling. -/
theorem not_dangling_of_subset {m m' : Module} (hm : ¬ m.Dangling)
    (hops : m'.operands ⊆ m.operands)
    (hfun : ∀ n, .func n ∈ m'.operands → (∃ f ∈ m.functions, f.name = n) →
      ∃ f ∈ m'.functions, f.name = n)
    (hglob : ∀ n, .global n ∈ m'.operands → (∃ g ∈ m.globals, g.name = n) →
      ∃ g ∈ m'.globals, g.name = n) :
    ¬ m'.Dangling := by
  rintro ⟨v, hv, ⟨n, rfl, hn⟩ | ⟨n, rfl, hn⟩⟩
  · refine hm ⟨_, hops hv, .inl ⟨n, rfl, ?_⟩⟩
    by_contra hne
    exact getGlobalVariable_ne_none.mpr (hglob n hv (getGlobalVariable_ne_none.mp hne)) hn
  · refine hm ⟨_, hops hv, .inr ⟨n, rfl, ?_⟩⟩
    by_contra hne
    exact getFunction_ne_none.mpr (hfun n hv (getFunction_ne_none.mp hne)) hn

/-- A value with no use is in no operand slot. -/
theorem not_mem_operands_of_getNumUses {m : Module} {v : Value} (h : m.getNumUses v = 0) :
    v ∉ m.operands :=
  List.count_eq_zero.mp h

theorem eraseGlobal_not_dangling {m : Module} {n : String} (hm : ¬ m.Dangling)
    (hn : m.getNumUses (.global n) = 0) :
    ¬ (m.eraseGlobal n).Dangling := by
  have hops : (m.eraseGlobal n).operands ⊆ m.operands := by
    intro v hv
    simp only [Module.operands, Module.eraseGlobal, List.mem_append, List.mem_flatMap,
      List.mem_filter] at hv ⊢
    rcases hv with (hv | ⟨g, ⟨hg, -⟩, hv⟩) | hv
    · exact .inl (.inl hv)
    · exact .inl (.inr ⟨g, hg, hv⟩)
    · exact .inr hv
  refine not_dangling_of_subset hm hops (fun _ _ h => h) fun n' hv ⟨g, hg, hgn⟩ => ?_
  have hne : n' ≠ n := by
    rintro rfl; exact not_mem_operands_of_getNumUses hn (hops hv)
  exact ⟨g, List.mem_filter.mpr ⟨hg, by simp [hgn, hne]⟩, hgn⟩

theorem removeFunctionByName_not_dangling {m : Module} (name : String) (hm : ¬ m.Dangling) :
    ¬ (removeFunctionByName name m).Dangling := by
  unfold removeFunctionByName
  split
  · -- internal linkage changes no slot and no name
    set m₁ := m.setFunctionLinkage name .internal
    have hm₁ : ¬ m₁.Dangling := by
      have hins : m₁.insts = m.insts := by
        simp only [m₁, Module.setFunctionLinkage, Module.insts, List.flatMap_map]
        congr 1; funext f; split <;> rfl
      have hops : m₁.operands = m.operands := by simp only [Module.operands, hins]; rfl
      have hfs : ∀ n, (∃ f ∈ m₁.functions, f.name = n) ↔ ∃ f ∈ m.functions, f.name = n := by
        intro n
        simp only [m₁, Module.setFunctionLinkage, List.mem_map]
        constructor
        · rintro ⟨_, ⟨f, hf, rfl⟩, rfl⟩; exact ⟨f, hf, by split <;> rfl⟩
        · rintro ⟨f, hf, rfl⟩; exact ⟨_, ⟨f, hf, rfl⟩, by split <;> rfl⟩
      exact not_dangling_of_subset hm (hops ▸ List.Subset.refl _) (fun n _ h => (hfs n).mpr h)
        fun _ _ h => h
    unfold removeFunction
    split
    · -- a function with no use is deleted, and no slot named it
      rename_i hnone
      have hn : m₁.getNumUses (.func name) = 0 := by
        simpa [Module.hasNUsesOrMore] using hnone
      have hops : (m₁.eraseFunction name).operands ⊆ m₁.operands := by
        intro v hv
        simp only [Module.operands, Module.eraseFunction, Module.insts, List.mem_append,
          List.mem_flatMap, List.mem_filter] at hv ⊢
        rcases hv with (⟨i, ⟨f, ⟨hf, -⟩, hi⟩, hv⟩ | hv) | hv
        · exact .inl (.inl ⟨i, ⟨f, hf, hi⟩, hv⟩)
        · exact .inl (.inr hv)
        · exact .inr hv
      refine not_dangling_of_subset hm₁ hops (fun n' hv ⟨f, hf, hfn⟩ => ?_) fun _ _ h => h
      have hne : n' ≠ name := by
        rintro rfl; exact not_mem_operands_of_getNumUses hn (hops hv)
      exact ⟨f, List.mem_filter.mpr ⟨hf, by simp [hfn, hne]⟩, hfn⟩
    · exact hm₁
  · exact hm

/-- `RemoveIntrinsics` deletes a function only when nothing uses it, and erases `llvm.used`,
which nothing uses in a lifted module: on such a module it leaves no operand naming a function
or global that is gone (unlike `RemoveISELs`). -/
theorem removeIntrinsics_not_dangling
    (m : Module)
    (hm : ¬ m.Dangling)
    (hused : m.getNumUses (.global "llvm.used") = 0) :
    ¬ (removeIntrinsics m).Dangling := by
  have hfold : ∀ (names : List String) (m' : Module), ¬ m'.Dangling →
      ¬ (names.foldl (fun m name => removeFunctionByName name m) m').Dangling := by
    intro names
    induction names with
    | nil => exact fun _ h => h
    | cons name names ih => exact fun m' h => ih _ (removeFunctionByName_not_dangling name h)
  unfold removeIntrinsics
  apply hfold
  -- erasing `llvm.used`, then giving a declared `__remill_mark_as_used` a body with no operand
  set m₁ := match m.getGlobalVariable "llvm.used" with
    | some _ => m.eraseGlobal "llvm.used"
    | none => m
  have hm₁ : ¬ m₁.Dangling := by
    simp only [m₁]
    split
    · exact eraseGlobal_not_dangling hm hused
    · exact hm
  split
  · split
    · refine not_dangling_of_subset hm₁ (fun v hv => ?_) (fun n _ ⟨f, hf, hfn⟩ => ?_)
        fun _ _ h => h
      · simp only [Module.operands, Module.insts, List.flatMap_map, List.mem_append,
          List.mem_flatMap] at hv ⊢
        rcases hv with (⟨i, ⟨f, hf, hi⟩, hv⟩ | hv) | hv
        · refine .inl (.inl ⟨i, ⟨f, hf, ?_⟩, hv⟩)
          split at hi
          · simp [defineMarkAsUsed, markAsUsedBody, Function.insts] at hi
            subst hi; simp at hv
          · exact hi
        · exact .inl (.inr hv)
        · exact .inr hv
      · exact ⟨_, List.mem_map_of_mem _ hf, by split <;> simp [defineMarkAsUsed, hfn, *]⟩
    · exact hm₁
  · exact hm₁

theorem functionReturnStillCalled_not_dangling :
    ¬ functionReturnStillCalled.Dangling ∧
      functionReturnStillCalled.getNumUses (.global "llvm.used") = 0 ∧
      ¬ (removeIntrinsics functionReturnStillCalled).Dangling :=
  ⟨by decide, by decide,
    removeIntrinsics_not_dangling functionReturnStillCalled (by decide) (by decide)⟩

/-- `RemoveFunction(const char *)` leaves the global variables alone. -/
@[simp] theorem globals_removeFunctionByName (name : String) (m : Module) :
    (removeFunctionByName name m).globals = m.globals := by
  unfold removeFunctionByName removeFunction
  split
  · split <;> rfl
  · rfl

/-- `RemoveIntrinsics` erases at most the global `llvm.used`. -/
theorem globals_removeIntrinsics_subset (m : Module) :
    (removeIntrinsics m).globals ⊆ m.globals := by
  have hfold : ∀ (names : List String) (m' : Module),
      (names.foldl (fun m name => removeFunctionByName name m) m').globals = m'.globals := by
    intro names
    induction names with
    | nil => exact fun _ => rfl
    | cons name names ih => intro m'; rw [List.foldl_cons, ih, globals_removeFunctionByName]
  unfold removeIntrinsics
  simp only [hfold]
  -- only erasing `llvm.used` touches the globals
  have hm₁ : (match m.getGlobalVariable "llvm.used" with
      | some _ => m.eraseGlobal "llvm.used"
      | none => m).globals ⊆ m.globals := by
    split
    · exact List.filter_subset' _
    · exact List.Subset.refl _
  split
  · split <;> exact hm₁
  · exact hm₁

end Intrinsics

end Optimize
end Mcsema
