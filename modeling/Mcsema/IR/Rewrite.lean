import Mcsema.IR.Module
import Mathlib.Data.List.Nodup

/-!
# mcsema: rewiring uses through chains of calls

`ReplaceBarrier` and `ReplaceMemWriteOp` walk a list of calls and, for each, replace all uses
of the call by one of its arguments, read from the call as it is at that moment.  When the
argument is a call processed later, that call's own replacement follows; when it is a call
processed earlier, the argument was rewritten already.

**Operand maps.**  A replacement is a map over every operand slot (`mapOperands`), so a
sequence of replacements is one map by the composed function, and it commutes with removing
instructions.

**Chains.**  `next c` is the value that call `c` is replaced by.  `OnChain L next v w` says
that following `next` from `v` through calls of `L` reaches `w`.

**Expansion.**  `Function.expandCalls f C E σ` is the shape a lowering pass leaves: each
instruction of `C` replaced by the instructions `E i`, and every operand sent through `σ`;
`Module.expandCalls` does the same to every function and every other operand slot.

**Results.**
* `rauwChain_onChain`, `rauwChain_not_call`: in whatever order the calls are processed, every
  operand ends up at a value of its chain that is not a call of the list, provided no call
  lies on its own chain.
* `onChain_end_unique`: there is only one such value, so the result does not depend on the
  order.
* `chainsAcyclic_of_rank`: a rank that drops along every link rules out cycles.
-/

namespace Mcsema
namespace IR

section Rewrite

namespace Module

/-- Apply `f` to every operand slot of the module. -/
def mapOperands (m : Module) (f : Value → Value) : Module :=
  { functions := (m.mapInsts (List.map fun i => { i with operands := i.operands.map f })).functions
    globals := m.globals.map fun g => { g with init := g.init.map f }
    constants := m.constants.map fun c => { c with operands := c.operands.map f } }

/-- Remove every instruction whose identity is in `ids`. -/
def removeInsts (m : Module) (ids : List Nat) : Module :=
  m.mapInsts (List.filter fun i => i.id ∉ ids)

/-- Instruction identities stand for addresses: no two instructions share one. -/
def IdsUnique (m : Module) : Prop :=
  (m.insts.map Inst.id).Nodup

instance (m : Module) : Decidable m.IdsUnique :=
  inferInstanceAs (Decidable (List.Nodup _))

theorem IdsUnique.function {m : Module} (h : m.IdsUnique) {fn : Function}
    (hf : fn ∈ m.functions) : (fn.insts.map Inst.id).Nodup := by
  unfold IdsUnique insts at h
  rw [List.map_flatMap] at h
  exact (List.nodup_flatMap.mp h).1 fn hf

/-- Rewriting every block instruction by instruction rewrites the module's instruction list. -/
theorem insts_mapInsts_flatMap (m : Module) (g : Inst → List Inst) :
    (m.mapInsts fun is => is.flatMap g).insts = m.insts.flatMap g := by
  simp [mapInsts, insts, Function.insts, List.flatMap_assoc, List.flatMap_map]

theorem le_foldr_max {l : List Nat} {x : Nat} (h : x ∈ l) : x ≤ l.foldr max 0 := by
  induction l with
  | nil => simp at h
  | cons a l ih =>
    rcases List.mem_cons.mp h with rfl | h
    · exact le_max_left _ _
    · exact (ih h).trans (le_max_right _ _)

theorem id_lt_freshId {m : Module} {i : Inst} (hi : i ∈ m.insts) : i.id < m.freshId :=
  Nat.lt_succ_of_le (le_foldr_max (List.mem_append_left _ (List.mem_map_of_mem _ hi)))

@[simp] theorem mapInsts_id (m : Module) : m.mapInsts (fun is => is) = m := by
  simp [mapInsts]

/-- Instructions put in front of others keep identities distinct when theirs are new and do not
repeat. -/
theorem nodup_ids_flatMap_fresh {l : List Inst} (hl : (l.map Inst.id).Nodup)
    (new : Inst → List Inst) (hnew : ∀ i ∈ l, ((new i).map Inst.id).Nodup)
    (hfresh : ∀ i ∈ l, ∀ j ∈ new i, ∀ i' ∈ l, j.id ≠ i'.id)
    (hsep : ∀ i ∈ l, ∀ i' ∈ l, i.id ≠ i'.id → ∀ j ∈ new i, ∀ j' ∈ new i', j.id ≠ j'.id) :
    ((l.flatMap fun i => new i ++ [i]).map Inst.id).Nodup := by
  induction l with
  | nil => simp
  | cons a l ih =>
    have ha : a.id ∉ l.map Inst.id := (List.nodup_cons.mp hl).1
    have hmem := List.mem_cons_self a l
    rw [List.flatMap_cons, List.map_append, List.nodup_append]
    refine ⟨?_, ih (List.nodup_cons.mp hl).2 (fun i hi => hnew i (List.mem_cons_of_mem _ hi))
      (fun i hi j hj i' hi' => hfresh i (List.mem_cons_of_mem _ hi) j hj i'
        (List.mem_cons_of_mem _ hi'))
      (fun i hi i' hi' => hsep i (List.mem_cons_of_mem _ hi) i' (List.mem_cons_of_mem _ hi')), ?_⟩
    · rw [List.map_append, List.nodup_append]
      refine ⟨hnew a hmem, List.nodup_singleton _, ?_⟩
      simp only [List.map_cons, List.map_nil, List.disjoint_singleton, List.mem_map, not_exists,
        not_and]
      intro j hj hja
      exact hfresh a hmem j hj a hmem hja
    · intro x hx hx'
      simp only [List.map_append, List.mem_append, List.mem_map, List.map_cons, List.map_nil,
        List.mem_singleton, List.mem_flatMap] at hx hx'
      obtain ⟨k, ⟨b, hb, hk⟩, rfl⟩ := hx'
      have hab : a.id ≠ b.id := fun h => ha (h ▸ List.mem_map_of_mem _ hb)
      have hb' := List.mem_cons_of_mem a hb
      rcases hx with ⟨j, hj, hjk⟩ | hak <;> rcases hk with hk | rfl
      · exact hsep a hmem b hb' hab j hj k hk hjk
      · exact hfresh a hmem j hj k hb' hjk
      · exact hfresh b hb' k hk a hmem hak
      · exact hab hak.symm

theorem replaceAllUsesWith_eq_mapOperands (m : Module) (old new : Value) :
    m.replaceAllUsesWith old new = m.mapOperands (Value.replace old new) := rfl

theorem mapOperands_mapOperands (m : Module) (f g : Value → Value) :
    (m.mapOperands f).mapOperands g = m.mapOperands (g ∘ f) := by
  simp [mapOperands, mapInsts, Function.comp_def, Option.map_map]

theorem mapOperands_id (m : Module) :
    m.mapOperands id = m := by
  simp [mapOperands, mapInsts]

theorem removeInsts_nil (m : Module) :
    m.removeInsts [] = m := by
  simp [removeInsts, mapInsts]

theorem removeInsts_perm (m : Module) {P Q : List Nat} (h : P.Perm Q) :
    m.removeInsts P = m.removeInsts Q := by
  simp [removeInsts, h.mem_iff]

theorem insts_mapOperands (m : Module) (f : Value → Value) :
    (m.mapOperands f).insts = m.insts.map fun i => { i with operands := i.operands.map f } := by
  simp [mapOperands, mapInsts, insts, Function.insts, List.map_flatMap, List.flatMap_map]

@[simp] theorem ids_mapOperands (m : Module) (f : Value → Value) :
    (m.mapOperands f).insts.map Inst.id = m.insts.map Inst.id := by
  simp [insts_mapOperands, Function.comp_def]

theorem insts_removeInsts (m : Module) (ids : List Nat) :
    (m.removeInsts ids).insts = m.insts.filter fun i => i.id ∉ ids := by
  simp [removeInsts, mapInsts, insts, Function.insts, List.filter_flatMap, List.flatMap_map]

theorem operands_mapOperands (m : Module) (f : Value → Value) :
    (m.mapOperands f).operands = m.operands.map f := by
  have htoList : ∀ o : Option Value, (o.map f).toList = o.toList.map f := by
    intro o; cases o <;> rfl
  simp [operands, insts_mapOperands, List.map_flatMap, List.flatMap_map, htoList]
  simp [mapOperands, List.map_flatMap, List.flatMap_map, htoList]

theorem removeInst_eq_removeInsts (m : Module) (id : Nat) :
    m.removeInst id = m.removeInsts [id] := by
  unfold removeInst removeInsts
  congr; funext l; congr; funext i
  by_cases h : i.id = id <;> simp [h]

theorem removeInsts_removeInsts (m : Module) (P Q : List Nat) :
    (m.removeInsts P).removeInsts Q = m.removeInsts (P ++ Q) := by
  simp [removeInsts, mapInsts, List.filter_filter, Bool.and_comm]

theorem removeInsts_mapOperands (m : Module) (P : List Nat) (f : Value → Value) :
    (m.mapOperands f).removeInsts P = (m.removeInsts P).mapOperands f := by
  simp [removeInsts, mapOperands, mapInsts, List.filter_map, Function.comp_def]

theorem inst?_mapOperands (m : Module) (f : Value → Value) (id : Nat) :
    (m.mapOperands f).inst? id = (m.inst? id).map fun i => { i with operands := i.operands.map f } := by
  simp [inst?, insts_mapOperands, List.find?_map, Function.comp_def]

theorem inst?_removeInsts (m : Module) (P : List Nat) {id : Nat} (h : id ∉ P) :
    (m.removeInsts P).inst? id = m.inst? id := by
  simp only [inst?, insts_removeInsts, List.find?_filter]
  congr 1
  funext i
  by_cases hi : i.id = id <;> simp [hi, h]

theorem inst?_eq_some {m : Module} {j : Nat} {i : Inst} (h : m.inst? j = some i) :
    i ∈ m.insts ∧ i.id = j :=
  ⟨List.mem_of_find?_eq_some h, by simpa using List.find?_some h⟩

theorem inst?_of_mem {m : Module} (hids : m.IdsUnique) {i : Inst} (hi : i ∈ m.insts) :
    m.inst? i.id = some i := by
  obtain ⟨i', hfind⟩ : ∃ i', m.inst? i.id = some i' :=
    Option.isSome_iff_exists.mp (List.find?_isSome.mpr ⟨i, hi, by simp⟩)
  obtain ⟨hi', hid⟩ := inst?_eq_some hfind
  rw [hfind, List.inj_on_of_nodup_map hids hi' hi hid]

theorem mem_instUsers {m : Module} {v : Value} {x : Nat} :
    x ∈ m.instUsers v ↔ ∃ i ∈ m.insts, i.id = x ∧ v ∈ i.operands := by
  simp only [instUsers, List.mem_map, List.mem_filter, decide_eq_true_eq]
  exact ⟨fun ⟨i, ⟨hi, hv⟩, hid⟩ => ⟨i, hi, hid, hv⟩, fun ⟨i, hi, hid, hv⟩ => ⟨i, ⟨hi, hv⟩, hid⟩⟩

theorem instUsers_mapOperands (m : Module) (f : Value → Value) (v : Value) :
    (m.mapOperands f).instUsers v =
      (m.insts.filter fun i => v ∈ i.operands.map f).map Inst.id := by
  simp [instUsers, insts_mapOperands, List.filter_map, Function.comp_def]

theorem eraseInst_of_mem {m : Module} {j : Nat} (h : j ∈ m.insts.map Inst.id) :
    m.eraseInst j = .ok (m.removeInsts [j]) := by
  obtain ⟨i, hi, rfl⟩ := List.mem_map.mp h
  rw [eraseInst, if_pos (List.any_eq_true.mpr ⟨i, hi, by simp⟩), removeInst_eq_removeInsts]

theorem mem_ids_removeInsts {m : Module} {P : List Nat} {j : Nat} :
    j ∈ (m.removeInsts P).insts.map Inst.id ↔ j ∈ m.insts.map Inst.id ∧ j ∉ P := by
  simp only [insts_removeInsts, List.mem_map, List.mem_filter, decide_eq_true_eq]
  constructor
  · rintro ⟨i, ⟨hi, hP⟩, rfl⟩; exact ⟨⟨i, hi, rfl⟩, hP⟩
  · rintro ⟨⟨i, hi, rfl⟩, hP⟩; exact ⟨i, ⟨hi, hP⟩, rfl⟩

/-- The loop `for (auto i : l) i->eraseFromParent();` over distinct instructions that are all
present removes exactly them. -/
theorem foldlM_eraseInst_of_nodup {l : List Nat} (hl : l.Nodup) :
    ∀ {m : Module}, (∀ j ∈ l, j ∈ m.insts.map Inst.id) →
      l.foldlM eraseInst m = .ok (m.removeInsts l) := by
  induction l with
  | nil => intro m _; rw [removeInsts_nil]; rfl
  | cons a t ih =>
    intro m hpres
    obtain ⟨hat, ht⟩ := List.nodup_cons.mp hl
    have hpres' : ∀ j ∈ t, j ∈ (m.removeInsts [a]).insts.map Inst.id := fun j hj =>
      mem_ids_removeInsts.mpr ⟨hpres j (by simp [hj]), by
        rw [List.mem_singleton]; rintro rfl; exact hat hj⟩
    rw [List.foldlM_cons, eraseInst_of_mem (hpres a (by simp))]
    simpa only [removeInsts_removeInsts] using ih ht hpres'

end Module

/-- Following `next` from `v` through calls of `L` reaches `w`. -/
inductive OnChain (L : List Nat) (next : Nat → Value) : Value → Value → Prop
  | refl (v : Value) : OnChain L next v v
  | step {c : Nat} {w : Value} : c ∈ L → OnChain L next (next c) w → OnChain L next (.inst c) w

/-- No call of `L` lies on its own chain. -/
def ChainsAcyclic (L : List Nat) (next : Nat → Value) : Prop :=
  ∀ c ∈ L, ¬ OnChain L next (next c) (.inst c)

/-- The operand map after `replaceAllUsesWith(c, r)` for each `c` of `L` in turn, where `r` is
`next c` as the earlier replacements left it. -/
def rauwChain (next : Nat → Value) (L : List Nat) : Value → Value :=
  L.foldl (fun σ c => Value.replace (.inst c) (σ (next c)) ∘ σ) id

variable {L : List Nat} {next : Nat → Value}

theorem OnChain.trans {u v w : Value} (h₁ : OnChain L next u v) (h₂ : OnChain L next v w) :
    OnChain L next u w := by
  induction h₁ with
  | refl => exact h₂
  | step hc _ ih => exact .step hc (ih h₂)

/-- Along a chain that ends at a call of `L`, a rank that drops at every link never rises. -/
theorem OnChain.rank_le {rank : Nat → Nat}
    (hrank : ∀ c ∈ L, ∀ c' ∈ L, next c = .inst c' → rank c' < rank c)
    {v w : Value}
    (h : OnChain L next v w)
    {c : Nat}
    (hw : w = .inst c)
    (hc : c ∈ L) :
    ∃ c₀ ∈ L, v = .inst c₀ ∧ rank c ≤ rank c₀ := by
  induction h with
  | refl => exact ⟨c, hc, hw, le_rfl⟩
  | @step c₀ _ hc₀ _ ih =>
    obtain ⟨c₁, hc₁, hnext, hle⟩ := ih hw
    exact ⟨c₀, hc₀, rfl, hle.trans (hrank c₀ hc₀ c₁ hc₁ hnext).le⟩

/-- Chains are acyclic when a rank (such as a position in dominance order) drops along every
link. -/
theorem chainsAcyclic_of_rank
    (rank : Nat → Nat)
    (hrank : ∀ c ∈ L, ∀ c' ∈ L, next c = .inst c' → rank c' < rank c) :
    ChainsAcyclic L next := by
  intro c hc h
  obtain ⟨c₁, hc₁, hnext, hle⟩ := h.rank_le hrank rfl hc
  exact absurd (hrank c hc c₁ hc₁ hnext) (not_lt.mpr hle)

theorem rauwChain_append_singleton (P : List Nat) (c : Nat) :
    rauwChain next (P ++ [c]) =
      Value.replace (.inst c) (rauwChain next P (next c)) ∘ rauwChain next P := by
  simp [rauwChain, List.foldl_append]

/-- Each replacement moves an operand along its chain. -/
theorem rauwChain_onChain
    (P : List Nat)
    (hP : ∀ c ∈ P, c ∈ L)
    (v : Value) :
    OnChain L next v (rauwChain next P v) := by
  induction P using List.reverseRecOn generalizing v with
  | nil => exact .refl v
  | append_singleton P c ih =>
    have ih' := ih (fun c' hc' => hP c' (by simp [hc']))
    rw [rauwChain_append_singleton]
    by_cases hv : rauwChain next P v = .inst c
    · simp only [Function.comp_apply, Value.replace, hv, if_true]
      exact (hv ▸ ih' v).trans (.step (hP c (by simp)) (ih' _))
    · simp only [Function.comp_apply, Value.replace, hv, if_false]
      exact ih' v

/-- After the replacements for `P`, no operand is a call of `P`. -/
theorem rauwChain_not_call
    (hacyc : ChainsAcyclic L next)
    (P : List Nat)
    (hP : ∀ c ∈ P, c ∈ L)
    (v : Value) :
    ∀ c ∈ P, rauwChain next P v ≠ .inst c := by
  induction P using List.reverseRecOn generalizing v with
  | nil => simp
  | append_singleton P c ih =>
    have hP' : ∀ c' ∈ P, c' ∈ L := fun c' hc' => hP c' (by simp [hc'])
    have hc : c ∈ L := hP c (by simp)
    rw [rauwChain_append_singleton]
    intro c' hc'
    by_cases hv : rauwChain next P v = .inst c
    · simp only [Function.comp_apply, Value.replace, hv, if_true]
      rcases List.mem_append.mp hc' with hc' | hc'
      · exact ih hP' _ c' hc'
      · rw [List.mem_singleton.mp hc']
        intro hself
        exact hacyc c hc (hself ▸ rauwChain_onChain P hP' (next c))
    · simp only [Function.comp_apply, Value.replace, hv, if_false]
      rcases List.mem_append.mp hc' with hc' | hc'
      · exact ih hP' v c' hc'
      · exact List.mem_singleton.mp hc' ▸ hv

/-- An operand that is no call of `P` is left alone. -/
theorem rauwChain_of_forall_ne (P : List Nat) {v : Value} (hv : ∀ c ∈ P, v ≠ .inst c) :
    rauwChain next P v = v := by
  induction P using List.reverseRecOn with
  | nil => rfl
  | append_singleton P c ih =>
    rw [rauwChain_append_singleton, Function.comp_apply,
      ih fun c' hc' => hv c' (List.mem_append_left _ hc')]
    exact if_neg (hv c (by simp))

theorem not_mem_of_nodup_append_cons {α : Type} {P Q : List α} {c : α}
    (h : (P ++ c :: Q).Nodup) :
    c ∉ P :=
  fun hc => (List.pairwise_append.mp h).2.2 c hc c (List.mem_cons_self c Q) rfl

/-- A loop over `L` in the `Except` monad ends in `inv L` when each iteration takes `inv P` to
`inv (P ++ [c])` for the prefix `P` processed before `c`. -/
theorem foldlM_prefix_invariant {α β : Type}
    {body : β → α → Except String β}
    (inv : List α → β → Prop)
    (L : List α)
    (b : β)
    (h0 : inv [] b)
    (hstep : ∀ P c Q b, L = P ++ c :: Q → inv P b → ∃ b', body b c = .ok b' ∧ inv (P ++ [c]) b') :
    ∃ b', L.foldlM body b = .ok b' ∧ inv L b' := by
  suffices key : ∀ Q P b, L = P ++ Q → inv P b → ∃ b', Q.foldlM body b = .ok b' ∧ inv L b' from
    key L [] b rfl h0
  intro Q
  induction Q with
  | nil => intro P b hL hb; exact ⟨b, rfl, by simpa [hL] using hb⟩
  | cons c Q ih =>
    intro P b hL hb
    obtain ⟨b', hbody, hb'⟩ := hstep P c Q b hL hb
    obtain ⟨b'', hfold, hb''⟩ := ih (P ++ [c]) b' (by simp [hL]) hb'
    exact ⟨b'', by simpa only [List.foldlM_cons, hbody] using hfold, hb''⟩

/-- Whenever a loop over `L` in the `Except` monad returns, it ends in `inv (P ++ L)` when it
starts in `inv P` and each iteration that returns takes `inv P` to `inv (P ++ [c])`. -/
theorem foldlM_ok_invariant {α β : Type}
    {body : β → α → Except String β}
    (inv : List α → β → Prop)
    (hstep : ∀ P c b b', inv P b → body b c = .ok b' → inv (P ++ [c]) b') :
    ∀ (L P : List α) (b r : β), inv P b → L.foldlM body b = .ok r → inv (P ++ L) r
  | [], P, b, r, hb, hr => by
    simp only [List.foldlM_nil, pure, Except.pure, Except.ok.injEq] at hr
    simpa [← hr] using hb
  | c :: L, P, b, r, hb, hr => by
    rw [List.foldlM_cons] at hr
    cases hbody : body b c with
    | error e => rw [hbody] at hr; cases hr
    | ok b' =>
      rw [hbody] at hr
      simpa using foldlM_ok_invariant inv hstep L (P ++ [c]) b' r (hstep P c b b' hb hbody) hr

end Rewrite

section Expansion

/-- Each instruction listed in `C` replaced by `E i`, then every operand sent through `σ`. -/
def expandInsts (C : List Nat) (E : Inst → List Inst) (σ : Value → Value) (is : List Inst) :
    List Inst :=
  (is.flatMap fun i => if i.id ∈ C then E i else [i]).map (Inst.mapOperands σ)

/-- A function with the instructions of `C` expanded and its operands redirected. -/
def Function.expandCalls (f : Function) (C : List Nat) (E : Inst → List Inst)
    (σ : Value → Value) : Function :=
  { f with blocks := f.blocks.map fun b => { b with insts := expandInsts C E σ b.insts } }

/-- Every function with the instructions of `C` expanded, and every operand slot of the module
sent through `σ`. -/
def Module.expandCalls (m : Module) (C : List Nat) (E : Inst → List Inst) (σ : Value → Value) :
    Module :=
  { functions := m.functions.map (·.expandCalls C E σ)
    globals := m.globals.map fun g => { g with init := g.init.map σ }
    constants := m.constants.map fun c => { c with operands := c.operands.map σ } }

end Expansion

section Shape

variable {C : List Nat} {E : Inst → List Inst} {σ : Value → Value} {f : Function} {i : Inst}

theorem expandInsts_nil : expandInsts C E σ [] = [] := rfl

theorem expandInsts_cons_kept (is : List Inst) (h : i.id ∉ C) :
    expandInsts C E σ (i :: is) = i.mapOperands σ :: expandInsts C E σ is := by
  simp [expandInsts, h]

theorem expandInsts_cons_call (is : List Inst) (h : i.id ∈ C) :
    expandInsts C E σ (i :: is) = (E i).map (Inst.mapOperands σ) ++ expandInsts C E σ is := by
  simp [expandInsts, h]

theorem mem_insts_of_mem_block {b : Block} (hb : b ∈ f.blocks) (hi : i ∈ b.insts) :
    i ∈ f.insts :=
  List.mem_flatMap.mpr ⟨b, hb, hi⟩

theorem mem_insts_expandCalls_kept (hi : i ∈ f.insts) (h : i.id ∉ C) :
    i.mapOperands σ ∈ (f.expandCalls C E σ).insts := by
  obtain ⟨b, hb, hib⟩ := List.mem_flatMap.mp hi
  refine List.mem_flatMap.mpr ⟨_, List.mem_map_of_mem _ hb, List.mem_map_of_mem _ ?_⟩
  exact List.mem_flatMap.mpr ⟨i, hib, by simp [h]⟩

/-- An instruction of an expanded function is a kept instruction or a piece of an expansion, with
its operands redirected. -/
theorem mem_insts_expandCalls {j : Inst} (hj : j ∈ (f.expandCalls C E σ).insts) :
    ∃ i ∈ f.insts, (i.id ∉ C ∧ j = i.mapOperands σ) ∨ (i.id ∈ C ∧ ∃ e ∈ E i, j = e.mapOperands σ) := by
  obtain ⟨b', hb', hjb⟩ := List.mem_flatMap.mp hj
  obtain ⟨b, hb, rfl⟩ := List.mem_map.mp hb'
  obtain ⟨j₀, hj₀, rfl⟩ := List.mem_map.mp hjb
  obtain ⟨i, hi, hj₀i⟩ := List.mem_flatMap.mp hj₀
  refine ⟨i, mem_insts_of_mem_block hb hi, ?_⟩
  split_ifs at hj₀i with hC
  · exact .inr ⟨hC, j₀, hj₀i, rfl⟩
  · exact .inl ⟨hC, by rw [List.mem_singleton.mp hj₀i]⟩

/-- The expansion rewrites every block instruction by instruction, then every operand slot. -/
theorem Module.expandCalls_eq_mapOperands (m : Module) :
    m.expandCalls C E σ =
      (m.mapInsts fun is => is.flatMap fun i => if i.id ∈ C then E i else [i]).mapOperands σ := by
  simp [Module.expandCalls, Function.expandCalls, expandInsts, Module.mapOperands, Module.mapInsts,
    Inst.mapOperands]

theorem Module.insts_expandCalls (m : Module) :
    (m.expandCalls C E σ).insts =
      (m.insts.flatMap fun i => if i.id ∈ C then E i else [i]).map (Inst.mapOperands σ) := by
  rw [Module.expandCalls_eq_mapOperands, Module.insts_mapOperands, Module.insts_mapInsts_flatMap]
  rfl

/-- An instruction of the expanded module is a kept instruction or a piece of an expansion, with
its operands redirected. -/
theorem Module.mem_insts_expandCalls {m : Module} {j : Inst}
    (hj : j ∈ (m.expandCalls C E σ).insts) :
    ∃ i ∈ m.insts, (i.id ∉ C ∧ j = i.mapOperands σ) ∨ (i.id ∈ C ∧ ∃ e ∈ E i, j = e.mapOperands σ) := by
  rw [Module.insts_expandCalls] at hj
  obtain ⟨j₀, hj₀, rfl⟩ := List.mem_map.mp hj
  obtain ⟨i, hi, hj₀i⟩ := List.mem_flatMap.mp hj₀
  refine ⟨i, hi, ?_⟩
  split_ifs at hj₀i with hC
  · exact .inr ⟨hC, j₀, hj₀i, rfl⟩
  · exact .inl ⟨hC, by rw [List.mem_singleton.mp hj₀i]⟩

theorem Module.mem_insts_expandCalls_kept {m : Module} (hi : i ∈ m.insts) (hC : i.id ∉ C) :
    i.mapOperands σ ∈ (m.expandCalls C E σ).insts := by
  rw [Module.insts_expandCalls]
  exact List.mem_map_of_mem _ (List.mem_flatMap.mpr ⟨i, hi, by simp [hC]⟩)

end Shape

end IR
end Mcsema
