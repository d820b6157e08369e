import Mcsema.BC.Optimize.Calls
import Mcsema.BC.Optimize.ISEL

/-!
# mcsema: the passes of `OptimizeModule` together

`OptimizeModule` finds the ISELs, removes intrinsics, removes the ISELs, runs LLVM's `-O3`
pipeline, removes intrinsics again, lowers the memory intrinsics and the six barriers, and
removes the calls of the undefined-value intrinsics.  `-O3` is a parameter of the model: any
rewrite of the module.

**Guarantees.**  `Clears names pass` says that whenever `pass` returns on a module with resolved
calls, the calls stay resolved and none of `names` is called; `Lowers names pass` says that on
lifted bitcode (`Lifted`) the result is lifted bitcode whose calls are exactly the calls before
of functions outside `names`.  Both follow for each pass from its inversion lemma in
`Optimize.Calls`, and both compose along the pipeline.

**Results.**
* `Clears.bind`, `Clears.foldlM`, `Lowers.bind`, `Lowers.foldlM`: what each pass guarantees
  composes along the pipeline.
* `lowerMemOps_lowers`, `barriers_lowers`, `removeUndefFuncCalls_lowers`: each pass, whenever
  it returns, deletes exactly the calls of its intrinsics.
* `removeIntrinsics_lifted`, `removeISELs_functions`: the passes before `-O3` keep lifted
  bitcode lifted.
* `optimizeModule_no_intrinsic_calls`: whenever `OptimizeModule` returns on a module with
  resolved calls, for every `-O3` that keeps calls resolved, no call of a memory intrinsic, a
  barrier or an undefined-value intrinsic is left.
* `optimizeModule_calls_iff`: whenever it returns on lifted bitcode, for every `-O3` that keeps
  bitcode lifted, the calls left are exactly the calls `-O3` and `RemoveIntrinsics` left of
  functions other than the lowered intrinsics.
-/

namespace Mcsema
namespace Optimize

open IR

section Pipeline

/-- The barriers `OptimizeModule` lowers, in its order. -/
def barrierNames : List String :=
  [ "__remill_barrier_load_load", "__remill_barrier_load_store", "__remill_barrier_store_load",
    "__remill_barrier_store_store", "__remill_barrier_atomic_begin",
    "__remill_barrier_atomic_end" ]

/-- `OptimizeModule`, with LLVM's `-O3` pipeline as the parameter `runO3` and the loop of
`RemoveISELs` tested at most `fuel` times. -/
def optimizeModule (ord : UseOrder) (runO3 : Module → Module) (fuel : Nat) (m : Module) :
    Except String Module := do
  let (isels, _) ← findISELs m
  match removeISELs fuel isels (removeIntrinsics m) with
  | none => .error "RemoveISELs did not return"
  | some m =>
    let m ← lowerMemOps ord (removeIntrinsics (runO3 m))
    let m ← barrierNames.foldlM (fun m name => replaceBarrier ord name m) m
    removeUndefFuncCalls ord m

/-- The intrinsics `OptimizeModule` lowers after `-O3`. -/
def loweredIntrinsics : List String :=
  memIntrinsics ++ barrierNames ++ undefIntrinsicNames

/-- Lifted bitcode as `OptimizeModule` receives it: calls are direct calls of functions of the
module, functions have distinct names and instructions distinct identities, and the intrinsics
it lowers are only declared. -/
structure Lifted (m : Module) : Prop where
  resolved : CallsResolved m
  names : (m.functions.map Function.name).Nodup
  ids : m.IdsUnique
  declared : DeclaredIn loweredIntrinsics m

instance (m : Module) : Decidable (Lifted m) :=
  decidable_of_iff (CallsResolved m ∧ (m.functions.map Function.name).Nodup ∧ m.IdsUnique ∧
      DeclaredIn loweredIntrinsics m)
    ⟨fun ⟨a, b, c, d⟩ => ⟨a, b, c, d⟩, fun h => ⟨h.1, h.2, h.3, h.4⟩⟩

/-- Lifted bitcode is a property of the functions alone. -/
theorem Lifted.of_functions_eq {m m' : Module} (h : m'.functions = m.functions) (hl : Lifted m) :
    Lifted m' where
  resolved := (callsResolved_congr h).mpr hl.resolved
  names := h ▸ hl.names
  ids := by unfold Module.IdsUnique Module.insts; rw [h]; exact hl.ids
  declared f hf := hl.declared f (h ▸ hf)

/-! ### `RemoveFunction` -/

section RemoveFunction

variable {m : Module} {name : String}

theorem functions_removeFunction_sublist (name : String) (m : Module) :
    (removeFunction name m).functions.Sublist m.functions := by
  unfold removeFunction
  split
  · exact List.filter_sublist _
  · exact List.Sublist.refl _

/-- `RemoveFunction` keeps resolved calls: it deletes a function only when nothing names it. -/
theorem removeFunction_callsResolved (hres : CallsResolved m) (name : String) :
    CallsResolved (removeFunction name m) ∧ CallsFrom m (removeFunction name m) := by
  unfold removeFunction
  split
  · rename_i hnone
    have hn : m.getNumUses (.func name) = 0 := by simpa [Module.hasNUsesOrMore] using hnone
    have hfrom : CallsFrom m (m.eraseFunction name) := CallsFrom.of_subset fun i hi _ => by
      simp only [Module.insts, Module.eraseFunction, List.mem_flatMap, List.mem_filter] at hi ⊢
      obtain ⟨f, ⟨hf, -⟩, hi⟩ := hi
      exact ⟨f, hf, hi⟩
    refine ⟨hres.of_callsFrom hfrom fun n hv hf => ?_, hfrom⟩
    have hne : n ≠ name := by rintro rfl; exact not_mem_operands_of_getNumUses hn hv
    obtain ⟨f, hfm, rfl⟩ := getFunction_ne_none.mp hf
    exact getFunction_ne_none.mpr ⟨f, List.mem_filter.mpr ⟨hfm, by simpa using hne⟩, rfl⟩
  · exact ⟨hres, .refl m⟩

theorem Lifted.removeFunction (hl : Lifted m) (name : String) : Lifted (removeFunction name m) :=
  have hsub := functions_removeFunction_sublist name m
  ⟨(removeFunction_callsResolved hl.resolved name).1, hl.names.sublist (hsub.map _),
    IdsUnique.of_sublist hsub hl.ids, fun f hf => hl.declared f (hsub.subset hf)⟩

theorem clears_removeFunction {m' : Module}
    (h : CallsResolved m' ∧ CallsFrom m m' ∧ ∀ n ∈ [name], callsTo m' n = []) :
    CallsResolved (removeFunction name m') ∧ CallsFrom m (removeFunction name m') ∧
      ∀ n ∈ [name], callsTo (removeFunction name m') n = [] :=
  have ⟨hres, hfrom⟩ := removeFunction_callsResolved h.1 name
  ⟨hres, h.2.1.trans hfrom, fun n hn => callsTo_eq_nil_of_callsFrom h.1 hfrom (h.2.2 n hn)⟩

end RemoveFunction

/-! ### Resolved calls, and no call of the lowered intrinsics -/

/-- Whenever `pass` returns on a module with resolved calls, the calls stay resolved, every
call is a call of the module before, and no function of `names` is called. -/
def Clears (names : List String) (pass : Module → Except String Module) : Prop :=
  ∀ m m', CallsResolved m → pass m = .ok m' →
    CallsResolved m' ∧ CallsFrom m m' ∧ ∀ n ∈ names, callsTo m' n = []

theorem Lowered.clears {name : String} {m m' : Module} (hres : CallsResolved m)
    (h : Lowered name m m') :
    CallsResolved m' ∧ CallsFrom m m' ∧ ∀ n ∈ [name], callsTo m' n = [] := by
  rcases h with ⟨hnone, rfl⟩ | ⟨E, m₂, hs, hgone, -, rfl | rfl⟩
  · exact (Step.refl _).clears hres fun c hc => by
      simp [callsTo_eq_nil_of_getFunction hres hnone] at hc
  · exact hs.clears hres hgone
  · exact clears_removeFunction (hs.clears hres hgone)

theorem Clears.of_lowered {name : String} {pass : Module → Except String Module}
    (h : ∀ m m', pass m = .ok m' → Lowered name m m') : Clears [name] pass :=
  fun m m' hres hm => (h m m' hm).clears hres

theorem Clears.of_subset {A B : List String} {pass : Module → Except String Module}
    (h : Clears A pass) (hB : ∀ n ∈ B, n ∈ A) : Clears B pass := fun m m' hres hm =>
  have ⟨hres', hfrom, hA⟩ := h m m' hres hm
  ⟨hres', hfrom, fun n hn => hA n (hB n hn)⟩

theorem Clears.bind {A B : List String} {p q : Module → Except String Module}
    (hp : Clears A p) (hq : Clears B q) : Clears (A ++ B) fun m => p m >>= q := by
  intro m m' hres h
  obtain ⟨b, hb, hm'⟩ := bind_eq_ok.mp h
  obtain ⟨hres₁, hfrom₁, hA⟩ := hp m b hres hb
  obtain ⟨hres₂, hfrom₂, hB⟩ := hq b m' hres₁ hm'
  refine ⟨hres₂, hfrom₁.trans hfrom₂, fun n hn => ?_⟩
  rcases List.mem_append.mp hn with hn | hn
  · exact callsTo_eq_nil_of_callsFrom hres₁ hfrom₂ (hA n hn)
  · exact hB n hn

theorem Clears.foldlM {α : Type} {names : α → List String}
    {pass : α → Module → Except String Module} (h : ∀ x, Clears (names x) (pass x)) :
    ∀ L : List α, Clears (L.flatMap names) fun m => L.foldlM (fun m x => pass x m) m
  | [] => fun m m' hres hm => by
    cases hm
    exact ⟨hres, .refl m, by simp⟩
  | x :: L => fun m m' hres hm => by
    simp only [List.foldlM_cons] at hm
    rw [List.flatMap_cons]
    exact (h x).bind (Clears.foldlM h L) m m' hres hm

theorem replaceMemReadOp_clears (ord : UseOrder) (name : String) (valType : Ty) :
    Clears [name] (replaceMemReadOp ord name valType) :=
  Clears.of_lowered fun _ _ => replaceMemReadOp_lowered

theorem replaceMemWriteOp_clears (ord : UseOrder) (name : String) (valType : Ty) :
    Clears [name] (replaceMemWriteOp ord name valType) :=
  Clears.of_lowered fun _ _ => replaceMemWriteOp_lowered

theorem replaceBarrier_clears (ord : UseOrder) (name : String) :
    Clears [name] (replaceBarrier ord name) :=
  Clears.of_lowered fun _ _ => replaceBarrier_lowered

theorem lowerMemOps_clears (ord : UseOrder) : Clears memIntrinsics (lowerMemOps ord) := by
  have h := (Clears.foldlM (fun op : String × Ty => replaceMemReadOp_clears ord op.1 op.2)
    memReadOps).bind ((Clears.foldlM (fun op : String × Ty => replaceMemWriteOp_clears ord op.1 op.2)
      memWriteOps).bind ((replaceMemReadOp_clears ord "__remill_read_memory_f80" .x86FP80).bind
        (replaceMemWriteOp_clears ord "__remill_write_memory_f80" .x86FP80)))
  exact h.of_subset fun n hn => by simpa [memIntrinsics, memReadOps, memWriteOps] using hn

theorem removeUndefFuncCalls_clears (ord : UseOrder) :
    Clears undefIntrinsicNames (removeUndefFuncCalls ord) := by
  intro m m' hres h
  have hstep : ∀ f : Function, Clears [f.name] fun m => do
      let m ← replaceUndefIntrinsic ord f m
      return removeFunction f.name m :=
    fun _ => Clears.of_lowered fun _ _ => removeUndefStep_lowered
  obtain ⟨hres', hfrom, hnil⟩ :=
    Clears.foldlM hstep (undefIntrinsicNames.filterMap m.getFunction) m m' hres h
  refine ⟨hres', hfrom, fun n hn => ?_⟩
  cases hf : m.getFunction n with
  | none => exact callsTo_eq_nil_of_callsFrom hres hfrom (callsTo_eq_nil_of_getFunction hres hf)
  | some f =>
    rw [← getFunction_name hf]
    exact hnil f.name (List.mem_flatMap.mpr
      ⟨f, List.mem_filterMap.mpr ⟨n, hn, hf⟩, List.mem_singleton_self _⟩)

/-! ### Exactly the calls of the lowered intrinsics deleted -/

/-- Whenever `pass` returns on lifted bitcode, the result is lifted bitcode whose calls are
exactly the calls before of functions outside `names`. -/
def Lowers (names : List String) (pass : Module → Except String Module) : Prop :=
  ∀ m m', Lifted m → pass m = .ok m' →
    Lifted m' ∧ ∀ n c, c ∈ callsTo m' n ↔ c ∈ callsTo m n ∧ n ∉ names

theorem Lowered.lowers {name : String} {m m' : Module} (hl : Lifted m)
    (hname : name ∈ loweredIntrinsics) (h : Lowered name m m') :
    Lifted m' ∧ ∀ n c, c ∈ callsTo m' n ↔ c ∈ callsTo m n ∧ n ∉ [name] := by
  rcases h with ⟨hnone, rfl⟩ | ⟨E, m₂, hs, hgone, hkeep, hm'⟩
  · refine ⟨hl, fun n c => ⟨fun hc => ⟨hc, fun hn => ?_⟩, fun hc => hc.1⟩⟩
    rw [List.mem_singleton.mp hn, callsTo_eq_nil_of_getFunction hl.resolved hnone] at hc
    exact List.not_mem_nil c hc
  · have hl₂ : Lifted m₂ :=
      ⟨hs.callsResolved hl.resolved, hs.names ▸ hl.names, hs.ids hl.ids, hs.declaredIn hl.declared⟩
    have hcalls : ∀ n c, c ∈ callsTo m₂ n ↔ c ∈ callsTo m n ∧ n ∉ [name] := fun n c =>
      ⟨fun hc => ⟨hs.calls.callsTo_subset hl.resolved hc, fun hn => by
          rw [(hs.clears hl.resolved hgone).2.2 n hn] at hc
          exact List.not_mem_nil c hc⟩,
        fun ⟨hc, hn⟩ => hs.keeps_call hc (hkeep hl.ids n (by simpa using hn) c hc)⟩
    rcases hm' with rfl | rfl
    · exact ⟨hl₂, hcalls⟩
    · have hinsts := insts_removeFunction fun f hf hn => hl₂.declared f hf (hn ▸ hname)
      exact ⟨hl₂.removeFunction name, fun n c => by rw [callsTo_congr hinsts]; exact hcalls n c⟩

theorem Lowers.of_lowered {name : String} {pass : Module → Except String Module}
    (hname : name ∈ loweredIntrinsics) (h : ∀ m m', pass m = .ok m' → Lowered name m m') :
    Lowers [name] pass :=
  fun m m' hl hm => (h m m' hm).lowers hl hname

theorem Lowers.congr {A B : List String} {pass : Module → Except String Module}
    (h : Lowers A pass) (hAB : ∀ n, n ∈ A ↔ n ∈ B) : Lowers B pass := fun m m' hl hm =>
  have ⟨hl', hiff⟩ := h m m' hl hm
  ⟨hl', fun n c => by rw [hiff, hAB]⟩

theorem Lowers.bind {A B : List String} {p q : Module → Except String Module}
    (hp : Lowers A p) (hq : Lowers B q) : Lowers (A ++ B) fun m => p m >>= q := by
  intro m m' hl h
  obtain ⟨b, hb, hm'⟩ := bind_eq_ok.mp h
  obtain ⟨hl₁, hA⟩ := hp m b hl hb
  obtain ⟨hl₂, hB⟩ := hq b m' hl₁ hm'
  exact ⟨hl₂, fun n c => by rw [hB, hA, List.mem_append, not_or, and_assoc]⟩

theorem Lowers.foldlM {α : Type} {names : α → List String}
    {pass : α → Module → Except String Module} :
    ∀ L : List α, (∀ x ∈ L, Lowers (names x) (pass x)) →
      Lowers (L.flatMap names) fun m => L.foldlM (fun m x => pass x m) m
  | [], _ => fun m m' hl hm => by
    cases hm
    exact ⟨hl, fun n c => by simp⟩
  | x :: L, h => fun m m' hl hm => by
    simp only [List.foldlM_cons] at hm
    rw [List.flatMap_cons]
    exact (h x (.head _)).bind (Lowers.foldlM L fun y hy => h y (.tail _ hy)) m m' hl hm

theorem replaceMemReadOp_lowers (ord : UseOrder) (name : String) (valType : Ty)
    (hname : name ∈ loweredIntrinsics) : Lowers [name] (replaceMemReadOp ord name valType) :=
  Lowers.of_lowered hname fun _ _ => replaceMemReadOp_lowered

theorem replaceMemWriteOp_lowers (ord : UseOrder) (name : String) (valType : Ty)
    (hname : name ∈ loweredIntrinsics) : Lowers [name] (replaceMemWriteOp ord name valType) :=
  Lowers.of_lowered hname fun _ _ => replaceMemWriteOp_lowered

theorem lowerMemOps_lowers (ord : UseOrder) : Lowers memIntrinsics (lowerMemOps ord) := by
  have hmem : ∀ n ∈ memIntrinsics, n ∈ loweredIntrinsics :=
    fun _ h => List.mem_append_left _ (List.mem_append_left _ h)
  have h := (Lowers.foldlM memReadOps fun op hop => replaceMemReadOp_lowers ord op.1 op.2
    (hmem _ (List.mem_append_left _ (List.mem_append_left _ (List.mem_map_of_mem _ hop))))).bind
    ((Lowers.foldlM memWriteOps fun op hop => replaceMemWriteOp_lowers ord op.1 op.2
      (hmem _ (List.mem_append_left _ (List.mem_append_right _ (List.mem_map_of_mem _ hop))))).bind
      ((replaceMemReadOp_lowers ord "__remill_read_memory_f80" .x86FP80
        (hmem _ (List.mem_append_right _ (List.mem_cons_self _ _)))).bind
        (replaceMemWriteOp_lowers ord "__remill_write_memory_f80" .x86FP80
          (hmem _ (List.mem_append_right _ (List.mem_cons_of_mem _ (List.mem_cons_self _ _)))))))
  exact h.congr fun n => by simp [memIntrinsics, eq_comm, or_assoc]

theorem barriers_lowers (ord : UseOrder) :
    Lowers barrierNames fun m => barrierNames.foldlM (fun m name => replaceBarrier ord name m) m :=
  (Lowers.foldlM barrierNames fun n hn => Lowers.of_lowered
    (List.mem_append_left _ (List.mem_append_right _ hn)) fun _ _ => replaceBarrier_lowered).congr
    fun n => by simp

theorem removeUndefFuncCalls_lowers (ord : UseOrder) :
    Lowers undefIntrinsicNames (removeUndefFuncCalls ord) := by
  intro m m' hl h
  have hfound : ∀ f ∈ undefIntrinsicNames.filterMap m.getFunction, f.name ∈ undefIntrinsicNames :=
    fun f hf => by
      obtain ⟨n, hn, hf⟩ := List.mem_filterMap.mp hf
      exact getFunction_name hf ▸ hn
  have hstep : ∀ f ∈ undefIntrinsicNames.filterMap m.getFunction, Lowers [f.name] fun m => do
      let m ← replaceUndefIntrinsic ord f m
      return removeFunction f.name m :=
    fun f hf => Lowers.of_lowered (List.mem_append_right _ (hfound f hf))
      fun _ _ => removeUndefStep_lowered
  obtain ⟨hl', hiff⟩ := Lowers.foldlM _ hstep m m' hl h
  refine ⟨hl', fun n c => ?_⟩
  rw [hiff]
  -- an undefined-value intrinsic the module lacks has no calls
  refine and_congr_right fun hc => not_congr ⟨fun hn => ?_, fun hn => ?_⟩
  · obtain ⟨f, hf, hfn⟩ := List.mem_flatMap.mp hn
    exact List.mem_singleton.mp hfn ▸ hfound f hf
  · cases hf : m.getFunction n with
    | none =>
      rw [callsTo_eq_nil_of_getFunction hl.resolved hf] at hc
      exact absurd hc (List.not_mem_nil c)
    | some f =>
      exact List.mem_flatMap.mpr ⟨f, List.mem_filterMap.mpr ⟨n, hn, hf⟩,
        List.mem_singleton.mpr (getFunction_name hf).symm⟩

/-! ### Before `-O3` -/

/-- A rewrite of each function that keeps its name and calls nothing new keeps calls
resolved. -/
theorem callsResolved_mapFunctions {m : Module} (hres : CallsResolved m) {h : Function → Function}
    (hname : ∀ f, (h f).name = f.name)
    (hinsts : ∀ f, ∀ i ∈ (h f).insts, i.op = .call → i ∈ f.insts) :
    CallsResolved { m with functions := m.functions.map h } := by
  have hnames : (m.functions.map h).map Function.name = m.functions.map Function.name := by
    simp [Function.comp_def, hname]
  refine hres.of_callsFrom (CallsFrom.of_subset fun i hi hc => ?_) fun n _ hf => ?_
  · simp only [Module.insts, List.mem_flatMap, List.mem_map] at hi ⊢
    obtain ⟨_, ⟨f, hf, rfl⟩, hi⟩ := hi
    exact ⟨f, hf, hinsts f i hi hc⟩
  · rw [getFunction_ne_none_iff_mem_names] at hf ⊢
    exact hnames ▸ hf

/-- A rewrite of each function that keeps its name and its blocks keeps bitcode lifted. -/
theorem Lifted.mapFunctions {m : Module} (hl : Lifted m) {h : Function → Function}
    (hname : ∀ f, (h f).name = f.name) (hblocks : ∀ f, (h f).blocks = f.blocks) :
    Lifted { m with functions := m.functions.map h } where
  resolved := callsResolved_mapFunctions hl.resolved hname fun f i hi _ => by
    rwa [Function.insts, hblocks] at hi
  names := by simpa [Function.comp_def, hname] using hl.names
  ids := by
    have hinsts : ({ m with functions := m.functions.map h } : Module).insts = m.insts := by
      simp only [Module.insts, List.flatMap_map]
      exact List.flatMap_congr fun f _ => by simp [Function.insts, hblocks]
    unfold Module.IdsUnique
    rw [hinsts]
    exact hl.ids
  declared f' hf' hn := by
    obtain ⟨f, hf, rfl⟩ := List.mem_map.mp hf'
    simpa [Function.isDeclaration, hblocks] using hl.declared f hf (hname f ▸ hn)

theorem removeFunctionByName_callsResolved {m : Module} (hres : CallsResolved m) (name : String) :
    CallsResolved (removeFunctionByName name m) := by
  unfold removeFunctionByName
  split
  · exact (removeFunction_callsResolved (callsResolved_mapFunctions hres (fun f => by split <;> rfl)
      fun f i hi _ => by split at hi <;> exact hi) name).1
  · exact hres

theorem removeFunctionByName_lifted {m : Module} (hl : Lifted m) (name : String) :
    Lifted (removeFunctionByName name m) := by
  unfold removeFunctionByName
  split
  · exact (hl.mapFunctions (fun f => by split <;> rfl) fun f => by split <;> rfl).removeFunction name
  · exact hl

/-- The body `RemoveIntrinsics` gives `__remill_mark_as_used` is one `ret` with a new
identity. -/
theorem insts_defineMarkAsUsed (m : Module) (f : Function) :
    (defineMarkAsUsed m f).insts = [{ id := m.freshId, op := .ret, ty := .void, operands := [] }] :=
  rfl

/-- Giving `__remill_mark_as_used` its body keeps bitcode lifted: the function has one name,
its new instruction a new identity, and it is no lowered intrinsic. -/
theorem defineMarkAsUsed_lifted {m : Module} (hl : Lifted m) :
    Lifted { m with functions := m.functions.map fun g =>
      if g.name = "__remill_mark_as_used" then defineMarkAsUsed m g else g } := by
  set h := fun g => if g.name = "__remill_mark_as_used" then defineMarkAsUsed m g else g
  have hname : ∀ g, (h g).name = g.name := fun g => by
    simp only [h]; split <;> rfl
  have hbody : ∀ g, (h g).insts.map Inst.id =
      if g.name = "__remill_mark_as_used" then [m.freshId] else g.insts.map Inst.id := fun g => by
    simp only [h]; split <;> simp [insts_defineMarkAsUsed]
  have hfresh : ∀ g ∈ m.functions, List.Disjoint [m.freshId] (g.insts.map Inst.id) :=
    fun g hg x hx hx' => by
      obtain ⟨i, hi, rfl⟩ := List.mem_map.mp hx'
      exact (Module.id_lt_freshId (List.mem_flatMap.mpr ⟨g, hg, hi⟩)).ne (List.mem_singleton.mp hx)
  have hu := hl.ids
  unfold Module.IdsUnique Module.insts at hu
  rw [List.map_flatMap, List.nodup_flatMap] at hu
  refine ⟨callsResolved_mapFunctions hl.resolved hname fun g i hi hc => ?_,
    by simpa [Function.comp_def, hname] using hl.names, ?_, fun g' hg' hn => ?_⟩
  · simp only [h] at hi
    split at hi
    · simp [insts_defineMarkAsUsed] at hi
      simp [hi] at hc
    · exact hi
  · unfold Module.IdsUnique Module.insts
    rw [List.map_flatMap, List.nodup_flatMap, List.pairwise_map]
    refine ⟨fun g' hg' => ?_, (hu.2.and (List.pairwise_map.mp hl.names)).imp_of_mem
      fun {a b} ha hb ⟨hd, hn⟩ => ?_⟩
    · obtain ⟨g, hg, rfl⟩ := List.mem_map.mp hg'
      rw [hbody]
      split
      · exact List.nodup_singleton _
      · exact hu.1 g hg
    · show List.Disjoint ((h a).insts.map Inst.id) ((h b).insts.map Inst.id)
      rw [hbody, hbody]
      split <;> split
      · exact absurd (‹a.name = _›.trans ‹b.name = _›.symm) hn
      · exact hfresh b hb
      · exact List.disjoint_symm (hfresh a ha)
      · exact hd
  · obtain ⟨g, hg, rfl⟩ := List.mem_map.mp hg'
    rw [hname] at hn
    simp only [h]
    split
    · exact absurd (‹g.name = _› ▸ hn) (by decide)
    · exact hl.declared g hg hn

/-- What `RemoveIntrinsics` keeps: an invariant of the functions that survives giving
`__remill_mark_as_used` a body and `RemoveFunction(const char *)`. -/
theorem removeIntrinsics_preserves (P : Module → Prop)
    (hglobals : ∀ m m', m'.functions = m.functions → P m → P m')
    (hmark : ∀ m, P m → P { m with functions := m.functions.map fun g =>
      if g.name = "__remill_mark_as_used" then defineMarkAsUsed m g else g })
    (hbyname : ∀ m name, P m → P (removeFunctionByName name m)) {m : Module} (hm : P m) :
    P (removeIntrinsics m) := by
  have hfold : ∀ (names : List String) (m' : Module), P m' →
      P (names.foldl (fun m name => removeFunctionByName name m) m') := by
    intro names
    induction names with
    | nil => exact fun _ h => h
    | cons name names ih => exact fun m' h => ih _ (hbyname _ name h)
  unfold removeIntrinsics
  apply hfold
  set m₁ := match m.getGlobalVariable "llvm.used" with
    | some _ => m.eraseGlobal "llvm.used"
    | none => m
  have hm₁ : P m₁ := by
    simp only [m₁]
    split
    · exact hglobals m _ rfl hm
    · exact hm
  split
  · split
    · exact hmark m₁ hm₁
    · exact hm₁
  · exact hm₁

/-- `RemoveIntrinsics` keeps resolved calls: the body it gives `__remill_mark_as_used` calls
nothing, and it deletes a function only when nothing names it. -/
theorem removeIntrinsics_callsResolved {m : Module} (hres : CallsResolved m) :
    CallsResolved (removeIntrinsics m) :=
  removeIntrinsics_preserves CallsResolved (fun _ _ h hm => (callsResolved_congr h).mpr hm)
    (fun m hm => callsResolved_mapFunctions hm (fun g => by split <;> rfl) fun g i hi hc => by
      split at hi
      · simp [insts_defineMarkAsUsed] at hi
        simp [hi] at hc
      · exact hi)
    (fun _ name hm => removeFunctionByName_callsResolved hm name) hres

theorem removeIntrinsics_lifted {m : Module} (hl : Lifted m) : Lifted (removeIntrinsics m) :=
  removeIntrinsics_preserves Lifted (fun _ _ h hm => hm.of_functions_eq h)
    (fun _ hm => defineMarkAsUsed_lifted hm) (fun _ name hm => removeFunctionByName_lifted hm name) hl

theorem removeISELsRound_functions (isels : List String) (m : Module) :
    (removeISELsRound isels m).2.functions = m.functions := by
  suffices key : ∀ (l : List String) (acc : List String × Module),
      (l.foldl removeISELsStep acc).2.functions = acc.2.functions from key isels ([], m)
  intro l
  induction l with
  | nil => exact fun _ => rfl
  | cons isel l ih =>
    intro acc
    rw [List.foldl_cons, ih]
    dsimp only [removeISELsStep]
    split <;> rfl

/-- `RemoveISELs` touches globals only. -/
theorem removeISELs_functions :
    ∀ (fuel : Nat) {isels : List String} {m m' : Module},
      removeISELs fuel isels m = some m' → m'.functions = m.functions
  | 0, _, _, _, h => by cases h
  | fuel + 1, isels, m, m', h => by
    unfold removeISELs at h
    split at h
    · cases h; rfl
    · exact (removeISELs_functions fuel h).trans (removeISELsRound_functions isels m)

/-! ### The pipeline -/

/-- Whenever `OptimizeModule` returns on a module whose calls are direct calls of its
functions, and `-O3` keeps calls so, the result's calls are still so and none of them calls a
memory intrinsic, a barrier or an undefined-value intrinsic. -/
theorem optimizeModule_no_intrinsic_calls (ord : UseOrder) (runO3 : Module → Module)
    (fuel : Nat) (hO3 : ∀ m, CallsResolved m → CallsResolved (runO3 m)) (m m' : Module)
    (hm : CallsResolved m) (h : optimizeModule ord runO3 fuel m = .ok m') :
    CallsResolved m' ∧
      ∀ n ∈ memIntrinsics ++ barrierNames ++ undefIntrinsicNames, callsTo m' n = [] := by
  obtain ⟨⟨isels, _⟩, -, h⟩ := bind_eq_ok.mp h
  dsimp only at h
  split at h
  · cases h
  · rename_i m₁ hisels
    have hres₁ : CallsResolved m₁ := (callsResolved_congr (removeISELs_functions fuel hisels)).mpr
      (removeIntrinsics_callsResolved hm)
    have hbarriers := (Clears.foldlM (fun name => replaceBarrier_clears ord name) barrierNames).of_subset
      fun n hn => List.mem_flatMap.mpr ⟨n, hn, List.mem_singleton_self n⟩
    obtain ⟨hres', -, hnil⟩ := ((lowerMemOps_clears ord).bind
      (hbarriers.bind (removeUndefFuncCalls_clears ord))) _ m'
        (removeIntrinsics_callsResolved (hO3 m₁ hres₁)) h
    exact ⟨hres', fun n hn => hnil n (List.append_assoc _ _ _ ▸ hn)⟩

/-- A lifted block that reads memory, fences stores against loads, and stores an undefined
value at the address it read: one call of each kind `OptimizeModule` lowers, each of a declared
intrinsic. -/
def fencedUndefStore : Module where
  functions :=
    [ { name := "__remill_read_memory_64", type := { ret := .int 64, params := [.memory, .int 64] }
        linkage := .external, attrs := [], blocks := [] },
      { name := "__remill_barrier_store_load", type := { ret := .memory, params := [.memory] }
        linkage := .external, attrs := [], blocks := [] },
      undefined64,
      { name := "sub_401000"
        type := { ret := .memory, params := [.memory, .state, .int 64] }
        linkage := .external, attrs := []
        blocks :=
          [ { label := 0
              insts :=
                [ { id := 1, op := .call, ty := .int 64,
                    operands := [.func "__remill_read_memory_64", .arg 0, .arg 2] },
                  { id := 2, op := .call, ty := .memory,
                    operands := [.func "__remill_barrier_store_load", .arg 0] },
                  { id := 3, op := .call, ty := .int 64,
                    operands := [.func "__remill_undefined_64"] },
                  { id := 4, op := .cast .inttoptr, ty := .ptr (.int 64), operands := [.inst 1] },
                  { id := 5, op := .store, ty := .int 64, operands := [.inst 3, .inst 4] },
                  { id := 6, op := .ret, ty := .memory, operands := [.inst 2] } ] } ] } ]
  globals := []
  constants := []

/-- `OptimizeModule` returns on `fencedUndefStore`. -/
theorem fencedUndefStore_returns :
    ∃ m', optimizeModule layoutOrder id 1 fencedUndefStore = .ok m' :=
  ⟨_, rfl⟩

theorem fencedUndefStore_optimized :
    ∃ m', optimizeModule layoutOrder id 1 fencedUndefStore = .ok m' ∧ CallsResolved m' ∧
      ∀ n ∈ memIntrinsics ++ barrierNames ++ undefIntrinsicNames, callsTo m' n = [] := by
  obtain ⟨m', h⟩ := fencedUndefStore_returns
  exact ⟨m', h, optimizeModule_no_intrinsic_calls layoutOrder id 1 (fun _ h => h) _ _
    (by decide) h⟩

/-- Whenever `OptimizeModule` returns on lifted bitcode, and `-O3` keeps bitcode lifted, the
result is lifted bitcode whose calls are exactly the calls that `-O3` and the second
`RemoveIntrinsics` left of functions other than the intrinsics it lowers: the lowering passes
delete every call of a lowered intrinsic, and no other call. -/
theorem optimizeModule_calls_iff (ord : UseOrder) (runO3 : Module → Module) (fuel : Nat)
    (hO3 : ∀ m, Lifted m → Lifted (runO3 m)) (m m' : Module) (hm : Lifted m)
    (h : optimizeModule ord runO3 fuel m = .ok m') :
    ∃ isels ds m₁, findISELs m = .ok (isels, ds) ∧
      removeISELs fuel isels (removeIntrinsics m) = some m₁ ∧ Lifted m' ∧
      ∀ n c, c ∈ callsTo m' n ↔
        c ∈ callsTo (removeIntrinsics (runO3 m₁)) n ∧ n ∉ loweredIntrinsics := by
  obtain ⟨⟨isels, ds⟩, hfind, h⟩ := bind_eq_ok.mp h
  dsimp only at h
  split at h
  · cases h
  · rename_i m₁ hisels
    have hl₁ : Lifted m₁ := (removeIntrinsics_lifted hm).of_functions_eq
      (removeISELs_functions fuel hisels)
    obtain ⟨hl', hiff⟩ := ((lowerMemOps_lowers ord).bind ((barriers_lowers ord).bind
      (removeUndefFuncCalls_lowers ord))) _ m' (removeIntrinsics_lifted (hO3 m₁ hl₁)) h
    exact ⟨isels, ds, m₁, hfind, hisels, hl', fun n c => by
      rw [hiff, loweredIntrinsics, List.append_assoc]⟩

theorem fencedUndefStore_calls :
    ∃ m', optimizeModule layoutOrder id 1 fencedUndefStore = .ok m' ∧
      ∃ isels ds m₁, findISELs fencedUndefStore = .ok (isels, ds) ∧
        removeISELs 1 isels (removeIntrinsics fencedUndefStore) = some m₁ ∧ Lifted m' ∧
        ∀ n c, c ∈ callsTo m' n ↔
          c ∈ callsTo (removeIntrinsics (id m₁)) n ∧ n ∉ loweredIntrinsics := by
  obtain ⟨m', h⟩ := fencedUndefStore_returns
  exact ⟨m', h, optimizeModule_calls_iff layoutOrder id 1 (fun _ h => h) _ _ (by decide) h⟩

end Pipeline

end Optimize
end Mcsema
