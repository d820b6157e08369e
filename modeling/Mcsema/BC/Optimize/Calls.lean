import Mcsema.BC.Optimize.LowerMemOps
import Mcsema.BC.Optimize.Barrier
import Mcsema.BC.Optimize.Undef

/-!
# mcsema: the calls the lowering passes keep

The passes after `-O3` rewrite operands, put instructions that are no calls in front of calls,
delete instructions, and delete functions nothing uses.  This module follows the calls of a
module through them.

**Calls.**  In lifted code every call is a direct call of a function of the module, indirect
control flow going through `__remill_function_call`: `CallsResolved`.  `CallsFrom m m'` says
that every call of `m'` is a call of `m` with the same identity and its operands sent through a
map that moves only values naming instructions, which keeps a direct call's callee.

**Steps.**  `Step E m m'` is what an iteration of a lowering loop that deletes the instructions
`E` does: every function stays, identities stay distinct, no call is made, and every other
instruction stays with its opcode and callee.  `Lowered name m m'` is what a whole pass on
`name` did when it returned; there is one such inversion lemma per pass, and what the pipeline
guarantees is derived from them alone.

**Results.**
* `replaceMemReadOp_lowered`, `replaceMemWriteOp_lowered`, `replaceBarrier_lowered`,
  `removeUndefStep_lowered`: each pass, whenever it returns, left none of the calls of its
  intrinsic, kept every call of another function and made no call.
-/

namespace Mcsema
namespace Optimize

open IR

section Calls

/-- Every call is a direct call of a function of the module. -/
def CallsResolved (m : Module) : Prop :=
  ∀ i ∈ m.insts, i.op = .call → ∃ n, i.operands.head? = some (.func n) ∧ m.getFunction n ≠ none

instance (m : Module) : Decidable (CallsResolved m) :=
  decidable_of_iff (∀ i ∈ m.insts, i.op = .call → ∃ n ∈ (i.operands.head?.bind fun v =>
      match v with | .func n => some n | _ => none).toList, m.getFunction n ≠ none) (by
    refine forall₂_congr fun i _ => imp_congr_right fun _ => ?_
    cases i.operands.head? with
    | none => simp
    | some v => cases v <;> simp)

/-- Every call of `m'` is a call of `m` with the same identity, its operands sent through a map
that moves only values naming instructions. -/
def CallsFrom (m m' : Module) : Prop :=
  ∃ σ : Value → Value, (∀ v, v.instId? = none → σ v = v) ∧
    ∀ i' ∈ m'.insts, i'.op = .call →
      ∃ i ∈ m.insts, i.id = i'.id ∧ i.op = .call ∧ i'.operands = i.operands.map σ

/-- No call of the module carries the identity `c`. -/
def NoCallAt (m : Module) (c : Nat) : Prop :=
  ∀ i ∈ m.insts, i.op = .call → i.id ≠ c

/-- The functions of `names` the module has are only declared. -/
def DeclaredIn (names : List String) (m : Module) : Prop :=
  ∀ f ∈ m.functions, f.name ∈ names → f.isDeclaration = true

instance (names : List String) (m : Module) : Decidable (DeclaredIn names m) :=
  inferInstanceAs (Decidable (∀ f ∈ m.functions, f.name ∈ names → f.isDeclaration = true))

/-- `i'` is `i` with its operands redirected: same identity and opcode, same direct callee. -/
def KeptAs (i i' : Inst) : Prop :=
  i'.id = i.id ∧ i'.op = i.op ∧
    ∀ n, i.operands.head? = some (.func n) → i'.operands.head? = some (.func n)

/-- What one iteration of a lowering loop deleting the instructions `E` does: every function
stays, with its name and whether it is a declaration; identities stay distinct; every call is a
call of the module before; every instruction not in `E` stays, with its opcode and callee. -/
structure Step (E : List Nat) (m m' : Module) : Prop where
  names : m'.functions.map Function.name = m.functions.map Function.name
  funcs : ∀ f' ∈ m'.functions, ∃ f ∈ m.functions,
    f'.name = f.name ∧ f'.isDeclaration = f.isDeclaration
  calls : CallsFrom m m'
  ids : m.IdsUnique → m'.IdsUnique
  keeps : ∀ i ∈ m.insts, i.id ∉ E → ∃ i' ∈ m'.insts, KeptAs i i'

/-! ### Calls of one module in another -/

theorem CallsFrom.refl (m : Module) : CallsFrom m m :=
  ⟨id, fun _ _ => rfl, fun i hi hc => ⟨i, hi, rfl, hc, by simp⟩⟩

theorem CallsFrom.trans {m₁ m₂ m₃ : Module} (h₁ : CallsFrom m₁ m₂) (h₂ : CallsFrom m₂ m₃) :
    CallsFrom m₁ m₃ := by
  obtain ⟨σ₁, hσ₁, h₁⟩ := h₁
  obtain ⟨σ₂, hσ₂, h₂⟩ := h₂
  refine ⟨σ₂ ∘ σ₁, fun v hv => by simp [hσ₁ v hv, hσ₂ v hv], fun i₃ hi₃ hc₃ => ?_⟩
  obtain ⟨i₂, hi₂, hid₂, hc₂, hops₂⟩ := h₂ i₃ hi₃ hc₃
  obtain ⟨i₁, hi₁, hid₁, hc₁, hops₁⟩ := h₁ i₂ hi₂ hc₂
  exact ⟨i₁, hi₁, hid₁.trans hid₂, hc₁, by rw [hops₂, hops₁, List.map_map]⟩

/-- A rewrite whose calls are calls of the module. -/
theorem CallsFrom.of_subset {m m' : Module} (h : ∀ i ∈ m'.insts, i.op = .call → i ∈ m.insts) :
    CallsFrom m m' :=
  ⟨id, fun _ _ => rfl, fun i hi hc => ⟨i, h i hi hc, rfl, hc, by simp⟩⟩

/-- A direct call keeps its callee: with resolved calls, a call of `name` after the rewrite is
a call of `name` before it. -/
theorem CallsFrom.callsTo_subset {m m' : Module} (hres : CallsResolved m) (h : CallsFrom m m')
    {name : String} {c : Nat} (hc : c ∈ callsTo m' name) : c ∈ callsTo m name := by
  obtain ⟨σ, hσ, h⟩ := h
  obtain ⟨i', hi', rfl, hcall, hhead⟩ := mem_callsTo_iff.mp hc
  obtain ⟨i, hi, hid, hop, hops⟩ := h i' hi' hcall
  obtain ⟨n, hn, -⟩ := hres i hi hop
  have hname : n = name := by
    rw [hops, List.head?_map, hn, Option.map_some', hσ (.func n) rfl] at hhead
    simpa using hhead
  exact mem_callsTo_iff.mpr ⟨i, hi, hid, hop, hname ▸ hn⟩

/-- A function not called before a rewrite whose calls come from the module is not called
after it. -/
theorem callsTo_eq_nil_of_callsFrom {m m' : Module} (hres : CallsResolved m)
    (h : CallsFrom m m') {name : String} (hn : callsTo m name = []) : callsTo m' name = [] :=
  List.eq_nil_iff_forall_not_mem.mpr fun _ hc => List.not_mem_nil _ (hn ▸ h.callsTo_subset hres hc)

/-- With resolved calls, a function that is not there is not called. -/
theorem callsTo_eq_nil_of_getFunction {m : Module} (hres : CallsResolved m) {name : String}
    (h : m.getFunction name = none) : callsTo m name = [] := by
  refine List.eq_nil_iff_forall_not_mem.mpr fun c hc => ?_
  obtain ⟨i, hi, -, hcall, hhead⟩ := mem_callsTo_iff.mp hc
  obtain ⟨n, hn, hf⟩ := hres i hi hcall
  rw [hhead, Option.some.injEq, Value.func.injEq] at hn
  exact hf (hn ▸ h)

theorem getFunction_ne_none_iff_mem_names {m : Module} {n : String} :
    m.getFunction n ≠ none ↔ n ∈ m.functions.map Function.name :=
  getFunction_ne_none.trans List.mem_map.symm

theorem getFunction_name {m : Module} {n : String} {f : Function} (h : m.getFunction n = some f) :
    f.name = n := by
  simpa using List.find?_some h

/-- Calls and functions are all `CallsResolved` reads of a module. -/
theorem callsResolved_congr {m m' : Module} (h : m'.functions = m.functions) :
    CallsResolved m' ↔ CallsResolved m := by
  unfold CallsResolved Module.insts Module.getFunction
  rw [h]

/-- A rewrite keeps every call's callee resolved when it keeps the functions calls name. -/
theorem CallsResolved.of_callsFrom {m m' : Module} (hres : CallsResolved m) (h : CallsFrom m m')
    (hfun : ∀ n, .func n ∈ m.operands → m.getFunction n ≠ none → m'.getFunction n ≠ none) :
    CallsResolved m' := by
  obtain ⟨σ, hσ, h⟩ := h
  intro i' hi' hc
  obtain ⟨i, hi, -, hop, hops⟩ := h i' hi' hc
  obtain ⟨n, hn, hf⟩ := hres i hi hop
  refine ⟨n, ?_, hfun n (mem_operands_of_mem_insts hi (List.mem_of_mem_head? hn)) hf⟩
  rw [hops, List.head?_map, hn, Option.map_some', hσ (.func n) rfl]

/-- Identities stay distinct when functions are dropped. -/
theorem IdsUnique.of_sublist {m m' : Module} (h : m'.functions.Sublist m.functions)
    (hids : m.IdsUnique) : m'.IdsUnique := by
  unfold Module.IdsUnique Module.insts at *
  rw [List.map_flatMap, List.nodup_flatMap] at *
  exact ⟨fun f hf => hids.1 f (h.subset hf), hids.2.sublist h⟩

/-! ### Steps of the lowering loops -/

section Step

variable {E E₁ E₂ : List Nat} {m m' m₁ m₂ m₃ : Module}

theorem KeptAs.refl (i : Inst) : KeptAs i i :=
  ⟨rfl, rfl, fun _ h => h⟩

theorem KeptAs.trans {i₁ i₂ i₃ : Inst} (h₁ : KeptAs i₁ i₂) (h₂ : KeptAs i₂ i₃) :
    KeptAs i₁ i₃ :=
  ⟨h₂.1.trans h₁.1, h₂.2.1.trans h₁.2.1, fun n h => h₂.2.2 n (h₁.2.2 n h)⟩

theorem Step.refl (m : Module) : Step [] m m :=
  ⟨rfl, fun f hf => ⟨f, hf, rfl, rfl⟩, .refl m, id, fun i hi _ => ⟨i, hi, .refl i⟩⟩

theorem Step.trans (h₁ : Step E₁ m₁ m₂) (h₂ : Step E₂ m₂ m₃) : Step (E₁ ++ E₂) m₁ m₃ where
  names := h₂.names.trans h₁.names
  funcs f₃ hf₃ := by
    obtain ⟨f₂, hf₂, hn₂, hd₂⟩ := h₂.funcs f₃ hf₃
    obtain ⟨f₁, hf₁, hn₁, hd₁⟩ := h₁.funcs f₂ hf₂
    exact ⟨f₁, hf₁, hn₂.trans hn₁, hd₂.trans hd₁⟩
  calls := h₁.calls.trans h₂.calls
  ids := h₂.ids ∘ h₁.ids
  keeps i hi hE := by
    rw [List.mem_append, not_or] at hE
    obtain ⟨i₂, hi₂, hk₂⟩ := h₁.keeps i hi hE.1
    obtain ⟨i₃, hi₃, hk₃⟩ := h₂.keeps i₂ hi₂ (hk₂.1 ▸ hE.2)
    exact ⟨i₃, hi₃, hk₂.trans hk₃⟩

theorem Step.callsResolved (h : Step E m m') (hres : CallsResolved m) : CallsResolved m' :=
  hres.of_callsFrom h.calls fun n _ hf => by
    rw [getFunction_ne_none_iff_mem_names] at hf ⊢
    rwa [h.names]

theorem Step.declaredIn (h : Step E m m') {names : List String} (hd : DeclaredIn names m) :
    DeclaredIn names m' := fun f' hf' hn => by
  obtain ⟨f, hf, hname, hdecl⟩ := h.funcs f' hf'
  exact hdecl.trans (hd f hf (hname ▸ hn))

/-- A call away from `E` stays, with its callee. -/
theorem Step.keeps_call (h : Step E m m') {n : String} {c : Nat} (hc : c ∈ callsTo m n)
    (hE : c ∉ E) : c ∈ callsTo m' n := by
  obtain ⟨i, hi, rfl, hcall, hhead⟩ := mem_callsTo_iff.mp hc
  obtain ⟨i', hi', hid, hop, hcallee⟩ := h.keeps i hi hE
  exact mem_callsTo_iff.mpr ⟨i', hi', hid, hop.trans hcall, hcallee n hhead⟩

theorem Step.noCallAt (h : Step E m m') {c : Nat} (hc : NoCallAt m c) : NoCallAt m' c := by
  obtain ⟨σ, -, h⟩ := h.calls
  intro i' hi' hcall
  obtain ⟨i, hi, hid, hop, -⟩ := h i' hi' hcall
  exact hid ▸ hc i hi hop

/-- A step that leaves none of the calls of `name` clears `name`. -/
theorem Step.clears (h : Step E m m') (hres : CallsResolved m) {name : String}
    (hgone : ∀ c ∈ callsTo m name, NoCallAt m' c) :
    CallsResolved m' ∧ CallsFrom m m' ∧ ∀ n ∈ [name], callsTo m' n = [] := by
  refine ⟨h.callsResolved hres, h.calls, fun n hn => ?_⟩
  rw [List.mem_singleton.mp hn]
  refine List.eq_nil_iff_forall_not_mem.mpr fun c hc => ?_
  obtain ⟨i, hi, rfl, hcall, -⟩ := mem_callsTo_iff.mp hc
  exact hgone _ (h.calls.callsTo_subset hres hc) i hi hcall rfl

theorem names_mapInsts (m : Module) (g : List Inst → List Inst) :
    (m.mapInsts g).functions.map Function.name = m.functions.map Function.name := by
  simp [Module.mapInsts, Function.comp_def]

theorem funcs_mapInsts (m : Module) (g : List Inst → List Inst) :
    ∀ f' ∈ (m.mapInsts g).functions, ∃ f ∈ m.functions,
      f'.name = f.name ∧ f'.isDeclaration = f.isDeclaration := by
  simp only [Module.mapInsts, List.mem_map]
  rintro _ ⟨f, hf, rfl⟩
  exact ⟨f, hf, rfl, by unfold Function.isDeclaration; cases f.blocks <;> rfl⟩

theorem mem_insts_mapInsts {g : List Inst → List Inst} {i : Inst} :
    i ∈ (m.mapInsts g).insts ↔ ∃ f ∈ m.functions, ∃ b ∈ f.blocks, i ∈ g b.insts := by
  simp [Module.mapInsts, Module.insts, Function.insts]

/-- A rewrite of the blocks that keeps no call it did not find and every instruction away from
`E`. -/
theorem step_mapInsts {g : List Inst → List Inst} (hcall : ∀ is, ∀ i ∈ g is, i.op = .call → i ∈ is)
    (hkeep : ∀ is, ∀ i ∈ is, i.id ∉ E → i ∈ g is) (hids : m.IdsUnique → (m.mapInsts g).IdsUnique) :
    Step E m (m.mapInsts g) where
  names := names_mapInsts m g
  funcs := funcs_mapInsts m g
  calls := CallsFrom.of_subset fun i hi hc => by
    obtain ⟨f, hf, b, hb, hi⟩ := mem_insts_mapInsts.mp hi
    exact List.mem_flatMap.mpr ⟨f, hf, mem_insts_of_mem_block hb (hcall _ i hi hc)⟩
  ids := hids
  keeps i hi hE := by
    obtain ⟨f, hf, hi⟩ := List.mem_flatMap.mp hi
    obtain ⟨b, hb, hi⟩ := List.mem_flatMap.mp hi
    exact ⟨i, mem_insts_mapInsts.mpr ⟨f, hf, b, hb, hkeep _ i hi hE⟩, .refl i⟩

theorem step_mapOperands (m : Module) {σ : Value → Value}
    (hσ : ∀ v, v.instId? = none → σ v = v) : Step [] m (m.mapOperands σ) where
  names := names_mapInsts m _
  funcs := funcs_mapInsts m _
  calls := ⟨σ, hσ, fun i' hi' hc => by
    rw [Module.insts_mapOperands] at hi'
    obtain ⟨i, hi, rfl⟩ := List.mem_map.mp hi'
    exact ⟨i, hi, rfl, hc, rfl⟩⟩
  ids h := by simpa [Module.IdsUnique] using h
  keeps i hi _ := ⟨{ i with operands := i.operands.map σ },
    by rw [Module.insts_mapOperands]; exact List.mem_map_of_mem _ hi, rfl, rfl,
    fun n hn => by simp [List.head?_map, hn, hσ (.func n) rfl]⟩

theorem step_replaceAllUsesWith (m : Module) (c : Nat) (v : Value) :
    Step [] m (m.replaceAllUsesWith (.inst c) v) := by
  rw [Module.replaceAllUsesWith_eq_mapOperands]
  exact step_mapOperands m fun v' hv' => if_neg (by rintro rfl; cases hv')

/-- `IRBuilder` insertion of instructions that are no calls, with new identities. -/
theorem step_insertBefore (m : Module) (pos : Nat) {new : List Inst}
    (hnew : ∀ i ∈ new, i.op ≠ .call) (hfresh : ∀ i ∈ new, m.freshId ≤ i.id)
    (hnd : (new.map Inst.id).Nodup) : Step [] m (m.insertBefore pos new) := by
  have hg : (fun i : Inst => if i.id = pos then new ++ [i] else [i]) =
      fun i => (if i.id = pos then new else []) ++ [i] := by
    funext i; split <;> rfl
  refine step_mapInsts (fun is i hi hc => ?_) (fun is i hi _ => ?_) fun hids => ?_
  · obtain ⟨j, hj, hi⟩ := List.mem_flatMap.mp hi
    split at hi
    · rcases List.mem_append.mp hi with hi | hi
      · exact absurd hc (hnew i hi)
      · exact List.mem_singleton.mp hi ▸ hj
    · exact List.mem_singleton.mp hi ▸ hj
  · exact List.mem_flatMap.mpr ⟨i, hi, by split <;> simp⟩
  · unfold Module.IdsUnique
    rw [Module.insts_mapInsts_flatMap, hg]
    refine Module.nodup_ids_flatMap_fresh hids _ (fun i _ => by split <;> simp [hnd])
      (fun i _ j hj i' hi' => ?_) fun i _ i' _ hii' j hj j' hj' => ?_
    · split at hj
      · exact (Nat.lt_of_lt_of_le (Module.id_lt_freshId hi') (hfresh j hj)).ne'
      · cases hj
    · split at hj <;> split at hj'
      · exact absurd (‹i.id = pos›.trans ‹i'.id = pos›.symm) hii'
      all_goals simp_all

theorem step_removeInst (m : Module) (c : Nat) : Step [c] m (m.removeInst c) :=
  step_mapInsts (fun _ _ hi _ => (List.mem_filter.mp hi).1)
    (fun _ i hi hE => List.mem_filter.mpr ⟨hi, by simpa using hE⟩) fun hids => by
      change (m.removeInst c).IdsUnique
      unfold Module.IdsUnique at *
      rw [Module.removeInst_eq_removeInsts, Module.insts_removeInsts]
      exact hids.sublist ((List.filter_sublist _).map _)

theorem eraseInst_step {c : Nat} (h : m.eraseInst c = .ok m') : Step [c] m m' ∧ NoCallAt m' c := by
  unfold Module.eraseInst at h
  split at h
  · cases h
    refine ⟨step_removeInst m c, fun i hi _ => ?_⟩
    obtain ⟨_, _, _, _, hi⟩ := mem_insts_mapInsts.mp hi
    simpa using (List.mem_filter.mp hi).2
  · cases h

end Step

theorem bind_eq_ok {α β : Type} {x : Except String α} {f : α → Except String β} {b : β} :
    x >>= f = .ok b ↔ ∃ a, x = .ok a ∧ f a = .ok b := by
  cases x <;> simp [bind, Except.bind]

section Loops

variable {α β : Type} (mod : β → Module)

/-- A loop whose every iteration deletes nothing deletes nothing. -/
theorem step_foldlM {body : β → α → Except String β}
    (hbody : ∀ b c b', body b c = .ok b' → Step [] (mod b) (mod b')) {L : List α} {b r : β}
    (h : L.foldlM body b = .ok r) : Step [] (mod b) (mod r) :=
  foldlM_ok_invariant (fun _ b' => Step [] (mod b) (mod b'))
    (fun _ c _ _ hb h => hb.trans (hbody _ c _ h)) L [] b r (.refl _) h

/-- A loop whose iteration at `c` deletes `c` and leaves no call at `c` deletes the identities
it goes through and leaves no call at any of them. -/
theorem foldlM_clears {body : β → Nat → Except String β}
    (hbody : ∀ b c b', body b c = .ok b' → Step [c] (mod b) (mod b') ∧ NoCallAt (mod b') c)
    {L : List Nat} {b r : β} (h : L.foldlM body b = .ok r) :
    Step L (mod b) (mod r) ∧ ∀ c ∈ L, NoCallAt (mod r) c := by
  have key := foldlM_ok_invariant
    (fun P b' => Step P (mod b) (mod b') ∧ ∀ c ∈ P, NoCallAt (mod b') c)
    (fun P c b₁ b₂ ⟨hb, hP⟩ h => by
      obtain ⟨hs, hc⟩ := hbody b₁ c b₂ h
      refine ⟨hb.trans hs, fun c' hc' => ?_⟩
      rcases List.mem_append.mp hc' with hc' | hc'
      · exact hs.noCallAt (hP c' hc')
      · exact List.mem_singleton.mp hc' ▸ hc)
    L [] b r ⟨.refl _, by simp⟩ h
  simpa using key

end Loops

/-! ### The loop bodies -/

section Bodies

variable {m m' : Module} {call : Nat}

theorem replaceMemReadCall_step {valType retType : Ty}
    (h : replaceMemReadCall valType retType m call = .ok m') : Step [] m m' := by
  unfold replaceMemReadCall at h
  split at h
  · cases h
  · split at h <;> cases h <;>
      exact (step_insertBefore m call (by simp) (by simp) (by simp)).trans
        (step_replaceAllUsesWith _ call _)

theorem replaceMemWriteCall_step {valType : Ty} (h : replaceMemWriteCall valType m call = .ok m') :
    Step [] m m' := by
  unfold replaceMemWriteCall at h
  dsimp only at h
  split at h
  · split at h <;> cases h <;>
      exact (step_insertBefore m call (by simp) (by simp) (by simp)).trans
        (step_replaceAllUsesWith _ call _)
  · cases h

theorem replaceBarrierCall_keeps (h : replaceBarrierCall m call = .ok m') :
    Step [call] m m' ∧ NoCallAt m' call := by
  unfold replaceBarrierCall at h
  split at h
  · have ⟨hs, hc⟩ := eraseInst_step h
    exact ⟨(step_replaceAllUsesWith m call _).trans hs, hc⟩
  · cases h

theorem replaceUndefCall_keeps {undef : Value} {acc r : Module × List Nat}
    (h : replaceUndefCall undef acc call = .ok r) : Step [call] acc.1 r.1 ∧ NoCallAt r.1 call := by
  obtain ⟨m, he, h⟩ := bind_eq_ok.mp h
  cases h
  have ⟨hs, hc⟩ := eraseInst_step he
  exact ⟨(step_replaceAllUsesWith acc.1 call undef).trans hs, hc⟩

/-- The identities `D` are stores of the module. -/
def StoresAt (m : Module) (D : List Nat) : Prop :=
  ∀ d ∈ D, ∃ i ∈ m.insts, i.id = d ∧ i.op = .store

theorem Step.storesAt {E D : List Nat} (h : Step E m m') (hE : ∀ d ∈ D, d ∉ E)
    (hD : StoresAt m D) : StoresAt m' D := fun d hd => by
  obtain ⟨i, hi, rfl, hop⟩ := hD d hd
  obtain ⟨i', hi', hid, hop', -⟩ := h.keeps i hi (hE _ hd)
  exact ⟨i', hi', hid, hop'.trans hop⟩

/-- An iteration of the work-list loop rewrites operands, and only adds stores to
`dead_stores`. -/
theorem propagateUndef_keeps {acc r : Module × List Nat × List Nat} {id : Nat}
    (h : propagateUndef acc id = .ok r) :
    Step [] acc.1 r.1 ∧ (StoresAt acc.1 acc.2.2 → StoresAt r.1 r.2.2) := by
  unfold propagateUndef at h
  split at h
  · cases h
  · next inst hinst =>
    split at h
    · cases h
      exact ⟨step_replaceAllUsesWith acc.1 id _, (step_replaceAllUsesWith acc.1 id _).storesAt
        fun _ _ => List.not_mem_nil _⟩
    · split at h <;> cases h
      · refine ⟨.refl _, fun hD d hd => ?_⟩
        rcases List.mem_append.mp hd with hd | hd
        · exact hD d hd
        · obtain ⟨hi, hid⟩ := Module.inst?_eq_some hinst
          exact ⟨inst, hi, hid.trans (List.mem_singleton.mp hd).symm, ‹_›⟩
      · exact ⟨.refl _, fun h => h⟩

theorem undefRounds_step :
    ∀ (fuel : Nat) {m : Module} {W dead : List Nat} {r : Module × List Nat},
      undefRounds fuel m W dead = .ok r → Step [] m r.1 ∧ (StoresAt m dead → StoresAt r.1 r.2)
  | 0, _, _, _, _, h => by cases h
  | fuel + 1, m, W, dead, r, h => by
    unfold undefRounds at h
    split at h
    · cases h; exact ⟨.refl m, id⟩
    · obtain ⟨⟨m₁, next, dead₁⟩, hfold, h⟩ := bind_eq_ok.mp h
      have key := foldlM_ok_invariant
        (fun _ (b : Module × List Nat × List Nat) => Step [] m b.1 ∧
          (StoresAt m dead → StoresAt b.1 b.2.2))
        (fun _ _ b b' ⟨hb, hD⟩ h => ⟨hb.trans (propagateUndef_keeps h).1,
          (propagateUndef_keeps h).2 ∘ hD⟩) W [] _ _ ⟨.refl m, id⟩ hfold
      obtain ⟨hs, hD⟩ := undefRounds_step fuel h
      exact ⟨key.1.trans hs, hD ∘ key.2⟩

end Bodies

/-! ### What each pass did -/

/-- What a pass lowering `name` did when it returned: nothing, the module having no `name`;
or a step deleting the calls of `name` and no other call, perhaps followed by
`RemoveFunction(name)`. -/
def Lowered (name : String) (m m' : Module) : Prop :=
  (m.getFunction name = none ∧ m' = m) ∨
    ∃ E m₂, Step E m m₂ ∧ (∀ c ∈ callsTo m name, NoCallAt m₂ c) ∧
      (m.IdsUnique → ∀ n ≠ name, ∀ c ∈ callsTo m n, c ∉ E) ∧
      (m' = m₂ ∨ m' = removeFunction name m₂)

section Passes

variable {ord : UseOrder} {name : String} {m m' : Module}

/-- The loops of `ReplaceMemReadOp` and `ReplaceMemWriteOp`: a rewrite, then the erasure of
the callers, then `RemoveFunction`. -/
theorem lowered_of_loops {m₁ m₂ : Module} (h₁ : Step [] m m₁)
    (h₂ : (callersOf ord m name).foldlM Module.eraseInst m₁ = .ok m₂) :
    Lowered name m (removeFunction name m₂) := by
  obtain ⟨hs, hgone⟩ := foldlM_clears id (fun _ _ _ => eraseInst_step) h₂
  exact .inr ⟨_, m₂, h₁.trans hs, fun c hc => hgone c (mem_callersOf.mpr hc),
    fun hids n hn c hc hE => hn (callsTo_name_eq hids hc (mem_callersOf.mp hE)), .inr rfl⟩

theorem replaceMemReadOp_lowered {valType : Ty} (h : replaceMemReadOp ord name valType m = .ok m') :
    Lowered name m m' := by
  unfold replaceMemReadOp at h
  split at h
  · cases h; exact .inl ⟨‹_›, rfl⟩
  · split at h
    · obtain ⟨m₁, h₁, h⟩ := bind_eq_ok.mp h
      obtain ⟨m₂, h₂, h⟩ := bind_eq_ok.mp h
      cases h
      exact lowered_of_loops (step_foldlM id (fun _ _ _ => replaceMemReadCall_step) h₁) h₂
    · cases h

theorem replaceMemWriteOp_lowered {valType : Ty}
    (h : replaceMemWriteOp ord name valType m = .ok m') : Lowered name m m' := by
  unfold replaceMemWriteOp at h
  split at h
  · cases h; exact .inl ⟨‹_›, rfl⟩
  · split at h
    · obtain ⟨m₁, h₁, h⟩ := bind_eq_ok.mp h
      obtain ⟨m₂, h₂, h⟩ := bind_eq_ok.mp h
      cases h
      exact lowered_of_loops (step_foldlM id (fun _ _ _ => replaceMemWriteCall_step) h₁) h₂
    · cases h

theorem replaceBarrier_lowered (h : replaceBarrier ord name m = .ok m') : Lowered name m m' := by
  unfold replaceBarrier at h
  split at h
  · cases h; exact .inl ⟨‹_›, rfl⟩
  · split at h
    · obtain ⟨hs, hgone⟩ := foldlM_clears id (fun _ _ _ => replaceBarrierCall_keeps) h
      exact .inr ⟨_, m', hs, fun c hc => hgone c (mem_callersOf.mpr hc),
        fun hids n hn c hc hE => hn (callsTo_name_eq hids hc (mem_callersOf.mp hE)), .inl rfl⟩
    · cases h

/-- `ReplaceUndefIntrinsic` deletes the calls of the intrinsic and stores only: a call of
another function is no store. -/
theorem replaceUndefIntrinsic_keeps {f : Function} (h : replaceUndefIntrinsic ord f m = .ok m') :
    ∃ E, Step E m m' ∧ (∀ c ∈ callsTo m f.name, NoCallAt m' c) ∧
      (m.IdsUnique → ∀ n ≠ f.name, ∀ c ∈ callsTo m n, c ∉ E) := by
  obtain ⟨⟨m₂, dead⟩, hprop, h⟩ := bind_eq_ok.mp h
  obtain ⟨⟨m₁, work⟩, hcalls, hrounds⟩ := bind_eq_ok.mp hprop
  obtain ⟨hs₁, hgone⟩ := foldlM_clears Prod.fst (fun _ _ _ => replaceUndefCall_keeps) hcalls
  obtain ⟨hs₂, hD⟩ := undefRounds_step _ hrounds
  obtain ⟨hs₃, -⟩ := foldlM_clears id (fun _ _ _ => eraseInst_step) h
  have hstores : StoresAt m₂ dead := hD fun _ hd => (List.not_mem_nil _ hd).elim
  refine ⟨_, (hs₁.trans hs₂).trans hs₃, fun c hc => ?_, fun hids n hn c hc hE => ?_⟩
  · exact (hs₂.trans hs₃).noCallAt (hgone c (mem_callersOf.mpr hc))
  · -- a call of `n` is not a caller of the intrinsic, so it is still a call when the dead
    -- stores are erased, and it carries no store's identity
    have hcaller : c ∉ callersOf ord m f.name :=
      fun h' => hn (callsTo_name_eq hids hc (mem_callersOf.mp h'))
    have hc₂ : c ∈ callsTo m₂ n := (hs₁.trans hs₂).keeps_call hc (by simpa using hcaller)
    rcases List.mem_append.mp hE with hE | hE
    · exact hcaller (by simpa using hE)
    · obtain ⟨i, hi, rfl, hop⟩ := hstores c hE
      obtain ⟨i', hi', hid, hcall, -⟩ := mem_callsTo_iff.mp hc₂
      have := List.inj_on_of_nodup_map ((hs₁.trans hs₂).ids hids) hi hi' hid.symm
      subst this
      simp [hop] at hcall

/-- One iteration of `RemoveUndefFuncCalls`: `ReplaceUndefIntrinsic`, then `RemoveFunction`. -/
theorem removeUndefStep_lowered {f : Function}
    (h : (do let m ← replaceUndefIntrinsic ord f m; return removeFunction f.name m) = .ok m') :
    Lowered f.name m m' := by
  obtain ⟨m₂, h₂, h⟩ := bind_eq_ok.mp h
  cases h
  obtain ⟨E, hs, hgone, hkeep⟩ := replaceUndefIntrinsic_keeps h₂
  exact .inr ⟨E, m₂, hs, hgone, hkeep, .inr rfl⟩

end Passes

end Calls

end Optimize
end Mcsema
