import Mcsema.IR.Semantics
import Mcsema.IR.Rewrite
import Mathlib.Data.List.Forall2
import Mathlib.Data.List.Nodup

/-!
# mcsema: expanding calls keeps a run

The optimizer's memory lowering replaces calls by plain instructions and redirects the calls'
uses.  This module proves, once for every rewrite of that shape, that the rewritten function
runs like the original.

**Shape.**  `Function.expandCalls f C E σ` replaces each instruction of `f` whose identity is in
`C` by the instructions `E i` and then sends every operand through `σ`, as the
`replaceAllUsesWith` calls of a lowering loop do.  `ExpandsCalls` states what such a loop
guarantees: `σ` moves only the listed instructions, the listed instructions and their expansions
are plain, the identities of the result are distinct, and an operand moved onto a kept
instruction is a memory state.

**Relation.**  `SimEnv` relates the environment of a run of `f` to one of the rewritten function:
every bound instruction's redirected operand evaluates to an agreeing value, and both
environments bind only instructions of their function, with the kind their type asks.  The rest
of the state (memory, choices drawn, events, blocks entered) is equal.

**Results.**
* `SimEnv.execInst_kept`: an instruction outside `C` runs alike with its operands redirected.
* `run_expandCalls`: when every instruction of `C` is simulated by its expansion, the rewritten
  function, with the memory intrinsics acting on the current memory, follows every run of `f`
  to the same state, with agreeing environments and an agreeing returned value.
-/

namespace Mcsema
namespace IR

section Simulation

/-- Every value bound in `env` was bound by an instruction of `f`, with the kind its type
asks. -/
def EnvTyped (f : Function) (env : Env) : Prop :=
  ∀ x v, env x = some v → ∃ i ∈ f.insts, i.id = x ∧ v.isMem = (i.ty == Ty.memory)

/-- What a lowering loop guarantees about the shape of its rewrite. -/
structure ExpandsCalls (f : Function) (C : List Nat) (E : Inst → List Inst)
    (σ : Value → Value) : Prop where
  const : ∀ v, v.instId? = none → σ v = v
  kept : ∀ x, x ∉ C → σ (.inst x) = .inst x
  plain : ∀ i ∈ f.insts, i.id ∈ C → i.op.isPlain = true
  expansion : ∀ i ∈ f.insts, i.id ∈ C → E i ≠ [] ∧ ∀ e ∈ E i, e.op.isPlain = true
  tokens : ∀ x, ∀ i ∈ f.insts, i.id ∉ C → x ≠ i.id → σ (.inst x) = .inst i.id →
    ∀ i' ∈ f.insts, i'.id = x → i'.ty = Ty.memory
  nodup : ((f.expandCalls C E σ).insts.map Inst.id).Nodup

variable (ctx : Ctx)

/-- The environments of a run of `f` and of a run of `f'`, where `f'` redirects operands
through `σ`. -/
structure SimEnv (σ : Value → Value) (f f' : Function) (env env' : Env) : Prop where
  agree : ∀ x v, env x = some v → ∃ v', evalPure ctx env' (σ (.inst x)) = some v' ∧ v.Agree v'
  typed : EnvTyped f env
  typed' : EnvTyped f' env'

/-- Every instruction of `C`, run in `f`, is simulated by its expansion run in the rewritten
function. -/
def ExpansionSimulates (f : Function) (C : List Nat) (E : Inst → List Inst)
    (σ : Value → Value) : Prop :=
  ∀ i ∈ f.insts, i.id ∈ C → ∀ env env' st env₁ st₁,
    SimEnv ctx σ f (f.expandCalls C E σ) env env' →
    execInst ctx env st i = some (env₁, st₁) →
    ∃ env₁', execInsts ctx env' st ((E i).map (Inst.mapOperands σ)) = some (env₁', st₁) ∧
      SimEnv ctx σ f (f.expandCalls C E σ) env₁ env₁'

/-- How two block exits agree. -/
def Exit.Agree : Exit → Exit → Prop
  | .jump l, .jump l' => l = l'
  | .ret v, .ret v' => Option.Rel Val.Agree v v'
  | _, _ => False

end Simulation

section Facts

variable {ctx : Ctx} {f f' : Function} {C : List Nat} {E : Inst → List Inst} {σ : Value → Value}
  {env env' : Env} {st st₁ : State} {i : Inst}

theorem EnvTyped.set (h : EnvTyped f env) (hi : i ∈ f.insts) {v : Val}
    (hv : v.isMem = (i.ty == Ty.memory)) :
    EnvTyped f (env.set i.id v) := by
  intro x w hx
  by_cases hxi : x = i.id
  · subst hxi
    simp only [Env.set_same, Option.some.injEq] at hx
    exact ⟨i, hi, rfl, hx ▸ hv⟩
  · exact h x w (by rwa [Env.set_ne _ _ hxi] at hx)

theorem EnvTyped.execInst (h : EnvTyped f env) (hi : i ∈ f.insts) {env₁ : Env}
    (he : execInst ctx env st i = some (env₁, st₁)) :
    EnvTyped f env₁ := by
  rcases execInst_eq_some.mp he with ⟨-, rfl⟩ | ⟨v, -, hv, rfl⟩
  · exact h
  · exact h.set hi hv

/-- Redirected operands evaluate to agreeing values. -/
theorem SimEnv.evalOperand (hsim : SimEnv ctx σ f f' env env')
    (hconst : ∀ v, v.instId? = none → σ v = v) {v : Value} {a : Val}
    (h : IR.evalOperand ctx env st v = some (a, st₁)) :
    ∃ a', IR.evalOperand ctx env' st (σ v) = some (a', st₁) ∧ a.Agree a' := by
  cases hv : v.instId? with
  | none =>
    rw [hconst v hv, evalOperand_of_instId_none ctx hv env' env]
    exact ⟨a, h, .refl a⟩
  | some x =>
    obtain rfl : v = .inst x := by cases v <;> simp_all [Value.instId?]
    rw [evalOperand_inst] at h
    obtain ⟨hx, rfl⟩ : env x = some a ∧ st₁ = st := by
      cases hx : env x <;> simp_all
    obtain ⟨a', ha', hagree⟩ := hsim.agree x a hx
    exact ⟨a', evalOperand_of_evalPure ctx ha', hagree⟩

/-- Redirected operands that draw nothing evaluate to agreeing values. -/
theorem SimEnv.evalPure (hsim : SimEnv ctx σ f f' env env')
    (hconst : ∀ v, v.instId? = none → σ v = v) {v : Value} {a : Val}
    (h : IR.evalPure ctx env v = some a) :
    ∃ a', IR.evalPure ctx env' (σ v) = some a' ∧ a.Agree a' := by
  cases hv : v.instId? with
  | none =>
    rw [hconst v hv, evalPure_of_instId_none ctx hv env' env]
    exact ⟨a, h, .refl a⟩
  | some x =>
    obtain rfl : v = .inst x := by cases v <;> simp_all [Value.instId?]
    exact hsim.agree x a h

theorem SimEnv.evalOperands (hsim : SimEnv ctx σ f f' env env')
    (hconst : ∀ v, v.instId? = none → σ v = v) (vs : List Value) :
    ∀ {st : State} {as : List Val}, IR.evalOperands ctx env st vs = some (as, st₁) →
      ∃ as', IR.evalOperands ctx env' st (vs.map σ) = some (as', st₁) ∧
        List.Forall₂ Val.Agree as as' := by
  induction vs with
  | nil =>
    intro st as h
    simp only [IR.evalOperands, Option.some.injEq, Prod.mk.injEq] at h
    obtain ⟨rfl, rfl⟩ := h
    exact ⟨[], rfl, .nil⟩
  | cons v vs ih =>
    intro st as h
    simp only [IR.evalOperands, Option.bind_eq_bind, Option.bind_eq_some] at h
    obtain ⟨⟨a, st₂⟩, ha, ⟨as₂, st₃⟩, has, hr⟩ := h
    simp only [pure, Option.some.injEq, Prod.mk.injEq] at hr
    obtain ⟨rfl, rfl⟩ := hr
    obtain ⟨a', ha', hagree⟩ := hsim.evalOperand hconst ha
    obtain ⟨as', has', hagrees⟩ := ih has
    refine ⟨a' :: as', ?_, .cons hagree hagrees⟩
    simp [IR.evalOperands, ha', has', pure]

/-- With the intrinsics acting on the current memory, a call sees its arguments only up to
agreement. -/
theorem execCall_agree (hcur : ctx.snapshot = false) {name : String} {vals vals' : List Val}
    {r : Val × State} (h : execCall ctx st name vals = some r)
    (hagree : List.Forall₂ Val.Agree vals vals') :
    execCall ctx st name vals' = some r := by
  unfold execCall at h ⊢
  split at h
  · split at h
    · simp only [List.forall₂_cons_left_iff, List.forall₂_nil_left_iff, Val.agree_mem_iff,
        Val.agree_bits_iff] at hagree
      obtain ⟨_, _, ⟨T', rfl⟩, ⟨_, _, rfl, rfl, rfl⟩, rfl⟩ := hagree
      simpa [readIntrinsic, hcur] using h
    · cases h
  · split at h
    · simp only [List.forall₂_cons_left_iff, List.forall₂_nil_left_iff, Val.agree_mem_iff,
        Val.agree_bits_iff] at hagree
      obtain ⟨_, _, ⟨T', rfl⟩, ⟨_, _, rfl, ⟨_, _, rfl, rfl, rfl⟩, rfl⟩, rfl⟩ := hagree
      simpa [writeIntrinsic, hcur] using h
    · cases h
  · simpa [externalCall, map_erase_of_forall₂_agree hagree] using h

/-- An instruction other than a call computes on bits only, so agreeing arguments are the
same. -/
theorem applyOp_agree {op : Opcode} {ty : Ty} {vals vals' : List Val} {r : Option Val × State}
    (h : applyOp ctx st op ty vals = some r) (hagree : List.Forall₂ Val.Agree vals vals') :
    applyOp ctx st op ty vals' = some r := by
  rwa [eq_of_forall₂_agree hagree (applyOp_bits ctx h)]

theorem SimEnv.evalInst_kept (hcur : ctx.snapshot = false) (hsim : SimEnv ctx σ f f' env env')
    (hconst : ∀ v, v.instId? = none → σ v = v) {r : Option Val × State}
    (h : evalInst ctx env st i = some r) :
    evalInst ctx env' st (i.mapOperands σ) = some r := by
  unfold evalInst at h ⊢
  simp only [Inst.mapOperands_op, Inst.mapOperands_ty, Inst.mapOperands_operands]
  split_ifs at h ⊢ with hcall
  · split at h
    · rename_i name args hops
      rw [hops, List.map_cons, hconst (.func name) rfl]
      simp only [Option.bind_eq_bind, Option.bind_eq_some] at h ⊢
      obtain ⟨⟨vals, st₂⟩, hvals, ⟨v, st₃⟩, hc, hr⟩ := h
      obtain ⟨vals', hvals', hagree⟩ := hsim.evalOperands hconst args hvals
      exact ⟨_, hvals', _, execCall_agree hcur hc hagree, hr⟩
    · cases h
  · simp only [Option.bind_eq_bind, Option.bind_eq_some] at h ⊢
    obtain ⟨⟨vals, st₂⟩, hvals, hop⟩ := h
    obtain ⟨vals', hvals', hagree⟩ := hsim.evalOperands hconst _ hvals
    exact ⟨_, hvals', applyOp_agree hop hagree⟩

end Facts

section Kept

variable {ctx : Ctx} {f : Function} {C : List Nat} {E : Inst → List Inst} {σ : Value → Value}
  {env env' : Env} {st st₁ : State} {i : Inst}

/-- Binding a kept instruction on both sides keeps the relation; an operand that `σ` moved onto
it was a memory state and stays one. -/
theorem SimEnv.set_kept (hsim : SimEnv ctx σ f (f.expandCalls C E σ) env env')
    (hx : ExpandsCalls f C E σ) (hi : i ∈ f.insts) (hC : i.id ∉ C) {v v' : Val}
    (hagree : v.Agree v') (hv' : v'.isMem = (i.ty == Ty.memory)) :
    SimEnv ctx σ f (f.expandCalls C E σ) (env.set i.id v) (env'.set i.id v') := by
  refine ⟨fun x w hw => ?_, hsim.typed.set hi (hagree.isMem_eq ▸ hv'),
    hsim.typed'.set (mem_insts_expandCalls_kept hi hC) hv'⟩
  by_cases hxi : x = i.id
  · subst hxi
    simp only [Env.set_same, Option.some.injEq] at hw
    subst hw
    exact ⟨v', by simp [hx.kept _ hC, IR.evalPure], hagree⟩
  rw [Env.set_ne _ _ hxi] at hw
  obtain ⟨w', hw', hww'⟩ := hsim.agree x w hw
  by_cases hσ : σ (.inst x) = .inst i.id
  · -- `x` is redirected onto `i`: both of its values are memory states
    have hmem := hx.tokens x i hi hC hxi hσ
    obtain ⟨ix, hix, rfl, hwk⟩ := hsim.typed x w hw
    have hw'mem : w'.isMem = true := by
      rw [← hww'.isMem_eq, hwk, hmem ix hix rfl]; rfl
    rw [hσ] at hw' ⊢
    obtain ⟨i', hi', hid, hk'⟩ := hsim.typed' i.id w' hw'
    have hii' : i' = i.mapOperands σ :=
      List.inj_on_of_nodup_map hx.nodup hi' (mem_insts_expandCalls_kept hi hC) hid
    have hty : i'.ty = i.ty := by rw [hii']; rfl
    refine ⟨v', by simp [IR.evalPure], Val.agree_of_isMem (hww'.isMem_eq ▸ hw'mem) ?_⟩
    rw [hv', ← hty, ← hk', hw'mem]
  · exact ⟨w', by rwa [evalPure_set_of_ne ctx hσ], hww'⟩

/-- An instruction that the rewrite keeps runs alike with its operands redirected. -/
theorem SimEnv.execInst_kept (hcur : ctx.snapshot = false)
    (hsim : SimEnv ctx σ f (f.expandCalls C E σ) env env') (hx : ExpandsCalls f C E σ)
    (hi : i ∈ f.insts) (hC : i.id ∉ C) {env₁ : Env} (h : execInst ctx env st i = some (env₁, st₁)) :
    ∃ env₁', execInst ctx env' st (i.mapOperands σ) = some (env₁', st₁) ∧
      SimEnv ctx σ f (f.expandCalls C E σ) env₁ env₁' := by
  rcases execInst_eq_some.mp h with ⟨he, rfl⟩ | ⟨v, he, hv, rfl⟩
  · exact ⟨env', execInst_eq_some.mpr (.inl ⟨hsim.evalInst_kept hcur hx.const he, rfl⟩), hsim⟩
  · exact ⟨env'.set i.id v,
      execInst_eq_some.mpr (.inr ⟨v, hsim.evalInst_kept hcur hx.const he, hv, rfl⟩),
      hsim.set_kept hx hi hC (.refl v) hv⟩

/-- A terminator runs alike with its operands redirected. -/
theorem SimEnv.execTerminator (hsim : SimEnv ctx σ f (f.expandCalls C E σ) env env')
    (hconst : ∀ v, v.instId? = none → σ v = v) {e : Exit}
    (h : IR.execTerminator ctx env st i = some (st₁, e)) :
    ∃ e', IR.execTerminator ctx env' st (i.mapOperands σ) = some (st₁, e') ∧ e.Agree e' := by
  obtain ⟨id, op, ty, ops⟩ := i
  unfold IR.execTerminator at h ⊢
  simp only [Inst.mapOperands_op, Inst.mapOperands_operands] at h ⊢
  split at h
  · simp only [Option.some.injEq, Prod.mk.injEq] at h
    obtain ⟨rfl, rfl⟩ := h
    exact ⟨_, rfl, rfl⟩
  · rename_i c
    simp only [List.map_cons, List.map_nil, Option.bind_eq_bind, Option.bind_eq_some] at h ⊢
    obtain ⟨⟨⟨w, n⟩ | M, st₂⟩, ha, hm⟩ := h
    · obtain ⟨a', ha', hagree⟩ := hsim.evalOperand hconst ha
      rw [Val.agree_bits_iff.mp hagree] at ha'
      simp only [Option.some.injEq, Prod.mk.injEq] at hm
      obtain ⟨rfl, rfl⟩ := hm
      exact ⟨_, ⟨_, ha', rfl⟩, rfl⟩
    · cases hm
  · simp only [Option.some.injEq, Prod.mk.injEq] at h
    obtain ⟨rfl, rfl⟩ := h
    exact ⟨_, rfl, .none⟩
  · simp only [List.map_cons, List.map_nil, Option.bind_eq_bind, Option.bind_eq_some] at h ⊢
    obtain ⟨⟨a, st₂⟩, ha, hm⟩ := h
    simp only [pure, Option.some.injEq, Prod.mk.injEq] at hm
    obtain ⟨rfl, rfl⟩ := hm
    obtain ⟨a', ha', hagree⟩ := hsim.evalOperand hconst ha
    exact ⟨_, ⟨_, ha', rfl⟩, .some hagree⟩
  · cases h

theorem phiIncoming_map (σ : Value → Value) (pred : Nat) :
    ∀ (preds : List Nat) (ops : List Value),
      phiIncoming pred preds (ops.map σ) = (phiIncoming pred preds ops).map σ
  | [], _ => rfl
  | _ :: _, [] => rfl
  | p :: ps, v :: vs => by
    simp only [List.map_cons, phiIncoming]
    split_ifs
    · rfl
    · exact phiIncoming_map σ pred ps vs

theorem evalPhis_of_not_phi {pred : Option Nat} {j : Inst} (l : List Inst)
    (hj : ∀ preds, j.op ≠ .phi preds) :
    IR.evalPhis ctx pred env st (j :: l) = some ([], st, j :: l) := by
  unfold IR.evalPhis
  split
  · rename_i preds hop
    exact absurd hop (hj preds)
  · rfl

/-- The rewrite of a block that starts with an instruction other than a `phi` starts with an
instruction other than a `phi`. -/
theorem expandInsts_head_not_phi (hx : ExpandsCalls f C E σ) (hi : i ∈ f.insts)
    (hphi : ∀ preds, i.op ≠ .phi preds) (is : List Inst) :
    ∃ j l, expandInsts C E σ (i :: is) = j :: l ∧ ∀ preds, j.op ≠ .phi preds := by
  by_cases hC : i.id ∈ C
  · obtain ⟨hne, hplain⟩ := hx.expansion i hi hC
    obtain ⟨e, es, hE⟩ := List.exists_cons_of_ne_nil hne
    refine ⟨e.mapOperands σ, _, by rw [expandInsts_cons_call _ hC, hE]; rfl, fun preds hop => ?_⟩
    have := hplain e (by simp [hE])
    rw [Inst.mapOperands_op] at hop
    simp [hop, Opcode.isPlain] at this
  · exact ⟨_, _, expandInsts_cons_kept _ hC, hphi⟩

/-- A `phi` binding of a run of `f` and the matching binding of the rewritten run. -/
def PhiBinds (f : Function) (C : List Nat) (p p' : Nat × Val) : Prop :=
  p'.1 = p.1 ∧ p.2.Agree p'.2 ∧
    ∃ i ∈ f.insts, i.id = p.1 ∧ i.id ∉ C ∧ p'.2.isMem = (i.ty == Ty.memory)

/-- The leading `phi`s of a block evaluate to agreeing bindings, and the rest of the block is
the rewrite of the rest. -/
theorem SimEnv.evalPhis (hsim : SimEnv ctx σ f (f.expandCalls C E σ) env env')
    (hx : ExpandsCalls f C E σ) (pred : Option Nat) (is : List Inst) :
    ∀ {st vals st₁ rest}, (∀ j ∈ is, j ∈ f.insts) →
      IR.evalPhis ctx pred env st is = some (vals, st₁, rest) →
      ∃ vals', IR.evalPhis ctx pred env' st (expandInsts C E σ is) =
          some (vals', st₁, expandInsts C E σ rest) ∧
        (∀ j ∈ rest, j ∈ f.insts) ∧ List.Forall₂ (PhiBinds f C) vals vals' := by
  induction is with
  | nil =>
    intro st vals st₁ rest _ h
    simp only [IR.evalPhis, Option.some.injEq, Prod.mk.injEq] at h
    obtain ⟨rfl, rfl, rfl⟩ := h
    exact ⟨[], rfl, by simp, .nil⟩
  | cons i is ih =>
    intro st vals st₁ rest hmem h
    have hi : i ∈ f.insts := hmem i (List.mem_cons_self _ _)
    by_cases hphi : ∃ preds, i.op = .phi preds
    · obtain ⟨preds, hop⟩ := hphi
      have hC : i.id ∉ C := fun hC => by simpa [hop, Opcode.isPlain] using hx.plain i hi hC
      simp only [IR.evalPhis, hop, Option.bind_eq_bind, Option.bind_eq_some] at h
      obtain ⟨v, hv, ⟨a, st₂⟩, ha, hrest⟩ := h
      split_ifs at hrest with hk
      simp only [Option.bind_eq_some, pure, Option.some.injEq] at hrest
      obtain ⟨⟨vals₂, st₃, rest₂⟩, hphis, hret⟩ := hrest
      simp only [Prod.mk.injEq] at hret
      obtain ⟨rfl, rfl, rfl⟩ := hret
      obtain ⟨a', ha', hagree⟩ := hsim.evalOperand hx.const ha
      obtain ⟨vals₂', hphis', hrest', hbinds⟩ :=
        ih (fun j hj => hmem j (List.mem_cons_of_mem _ hj)) hphis
      have hv' : pred.bind (fun p => phiIncoming p preds (i.operands.map σ)) = some (σ v) := by
        obtain ⟨p, rfl, hp⟩ := hv
        simp [phiIncoming_map, hp]
      have hk' : a'.isMem = (i.ty == Ty.memory) := hagree.isMem_eq ▸ hk
      refine ⟨(i.id, a') :: vals₂', ?_, hrest', .cons ⟨rfl, hagree, i, hi, rfl, hC, hk'⟩ hbinds⟩
      rw [expandInsts_cons_kept _ hC]
      simp [IR.evalPhis, hop, hv', ha', hk', hphis']
    · push_neg at hphi
      rw [evalPhis_of_not_phi _ hphi] at h
      simp only [Option.some.injEq, Prod.mk.injEq] at h
      obtain ⟨rfl, rfl, rfl⟩ := h
      obtain ⟨j, l, hjl, hj⟩ := expandInsts_head_not_phi hx hi hphi is
      exact ⟨[], by rw [hjl, evalPhis_of_not_phi _ hj], hmem, .nil⟩

/-- Binding the `phi`s on both sides keeps the relation. -/
theorem SimEnv.setPhis (hx : ExpandsCalls f C E σ) {vals vals' : List (Nat × Val)}
    (hbinds : List.Forall₂ (PhiBinds f C) vals vals') :
    ∀ {env env'}, SimEnv ctx σ f (f.expandCalls C E σ) env env' →
      SimEnv ctx σ f (f.expandCalls C E σ) (vals.foldl (fun env p => env.set p.1 p.2) env)
        (vals'.foldl (fun env p => env.set p.1 p.2) env') := by
  induction hbinds with
  | nil => exact id
  | @cons p p' _ _ hp _ ih =>
    intro env env' hsim
    obtain ⟨x, v⟩ := p
    obtain ⟨y, v'⟩ := p'
    obtain ⟨rfl, hagree, i, hi, rfl, hC, hk⟩ := hp
    exact ih (hsim.set_kept hx hi hC hagree hk)

theorem execBody_append_plain (l₂ : List Inst) (l₁ : List Inst) :
    ∀ {env st}, (∀ e ∈ l₁, e.op.isPlain = true) →
      IR.execBody ctx env st (l₁ ++ l₂) =
        (execInsts ctx env st l₁).bind fun p => IR.execBody ctx p.1 p.2 l₂ := by
  induction l₁ with
  | nil => intro env st _; rfl
  | cons e l₁ ih =>
    intro env st h
    simp only [List.cons_append, IR.execBody, h e (List.mem_cons_self _ _), if_true, execInsts,
      Option.bind_eq_bind, Option.bind_assoc]
    congr 1
    funext p
    exact ih fun e' he' => h e' (List.mem_cons_of_mem _ he')

/-- The body of a block, after its `phi`s, runs alike in its rewrite. -/
theorem SimEnv.execBody (hcur : ctx.snapshot = false) (hx : ExpandsCalls f C E σ)
    (hexp : ExpansionSimulates ctx f C E σ) (is : List Inst) :
    ∀ {env env' st r}, (∀ j ∈ is, j ∈ f.insts) →
      SimEnv ctx σ f (f.expandCalls C E σ) env env' →
      IR.execBody ctx env st is = some r →
      ∃ env₁' e', IR.execBody ctx env' st (expandInsts C E σ is) = some (env₁', r.2.1, e') ∧
        SimEnv ctx σ f (f.expandCalls C E σ) r.1 env₁' ∧ r.2.2.Agree e' := by
  induction is with
  | nil => intro _ _ _ _ _ _ h; cases h
  | cons i is ih =>
    intro env env' st r hmem hsim h
    have hi := hmem i (List.mem_cons_self _ _)
    have hmem' := fun j hj => hmem j (List.mem_cons_of_mem i hj)
    by_cases hplain : i.op.isPlain = true
    · simp only [IR.execBody, hplain, if_true, Option.bind_eq_bind, Option.bind_eq_some] at h
      obtain ⟨⟨env₁, st₁⟩, hexec, hrest⟩ := h
      by_cases hC : i.id ∈ C
      · -- a listed instruction: its expansion runs in its place
        obtain ⟨env₁', hexec', hsim₁⟩ := hexp i hi hC env env' st env₁ st₁ hsim hexec
        obtain ⟨env₂', e', hbody', hsim₂, he⟩ := ih hmem' hsim₁ hrest
        refine ⟨env₂', e', ?_, hsim₂, he⟩
        rw [expandInsts_cons_call _ hC, execBody_append_plain _ _
          (by simpa using (hx.expansion i hi hC).2), hexec']
        exact hbody'
      · -- a kept instruction
        obtain ⟨env₁', hexec', hsim₁⟩ := hsim.execInst_kept hcur hx hi hC hexec
        obtain ⟨env₂', e', hbody', hsim₂, he⟩ := ih hmem' hsim₁ hrest
        refine ⟨env₂', e', ?_, hsim₂, he⟩
        rw [expandInsts_cons_kept _ hC]
        simp [IR.execBody, hplain, hexec', hbody']
    · -- the terminator
      have hC : i.id ∉ C := fun hC => hplain (hx.plain i hi hC)
      simp only [IR.execBody, hplain, Bool.false_eq_true, if_false] at h
      obtain ⟨⟨st₁, e⟩, hterm, rfl⟩ := Option.map_eq_some'.mp h
      obtain ⟨e', hterm', he⟩ := hsim.execTerminator hx.const hterm
      refine ⟨env', e', ?_, hsim, he⟩
      rw [expandInsts_cons_kept _ hC]
      simp [IR.execBody, hplain, hterm']

theorem SimEnv.execBlock (hcur : ctx.snapshot = false) (hx : ExpandsCalls f C E σ)
    (hexp : ExpansionSimulates ctx f C E σ) {b : Block} (hb : b ∈ f.blocks) (pred : Option Nat)
    {r : Env × State × Exit} (hsim : SimEnv ctx σ f (f.expandCalls C E σ) env env')
    (h : IR.execBlock ctx pred env st b = some r) :
    ∃ env₁' e', IR.execBlock ctx pred env' st { b with insts := expandInsts C E σ b.insts } =
        some (env₁', r.2.1, e') ∧
      SimEnv ctx σ f (f.expandCalls C E σ) r.1 env₁' ∧ r.2.2.Agree e' := by
  simp only [IR.execBlock, Option.bind_eq_bind, Option.bind_eq_some] at h
  obtain ⟨⟨vals, st₁, body⟩, hphis, hbody⟩ := h
  obtain ⟨vals', hphis', hbodymem, hbinds⟩ :=
    hsim.evalPhis hx pred b.insts (fun j hj => mem_insts_of_mem_block hb hj) hphis
  obtain ⟨env₁', e', hbody', hsim₁, he⟩ :=
    SimEnv.execBody hcur hx hexp body hbodymem (hsim.setPhis hx hbinds) hbody
  exact ⟨env₁', e', by simp [IR.execBlock, hphis', hbody'], hsim₁, he⟩

end Kept

section Follow

/-- Every run of `f` from a memory is followed by a run of `f'` to the same state, with an
agreeing result, and with every instruction outside `K` bound to an agreeing value. -/
def RunsFollow (ctx : Ctx) (f f' : Function) (K : List Nat) : Prop :=
  ∀ M fuel r env st, runFunction ctx f M fuel = some (r, env, st) →
    ∃ r' env', runFunction ctx f' M fuel = some (r', env', st) ∧
      Option.Rel (Option.Rel Val.Agree) r r' ∧
      ∀ x v, x ∉ K → env x = some v → ∃ v', env' x = some v' ∧ v.Agree v'

variable {ctx : Ctx} {f f₁ f₂ : Function} {K K₁ K₂ : List Nat}

theorem option_rel_trans {α : Type} {R : α → α → Prop} (hR : ∀ a b c, R a b → R b c → R a c) :
    ∀ {x y z : Option α}, Option.Rel R x y → Option.Rel R y z → Option.Rel R x z
  | _, _, _, .none, .none => .none
  | _, _, _, .some h₁, .some h₂ => .some (hR _ _ _ h₁ h₂)

theorem option_rel_refl {α : Type} {R : α → α → Prop} (hR : ∀ a, R a a) :
    ∀ x : Option α, Option.Rel R x x
  | none => .none
  | some a => .some (hR a)

theorem RunsFollow.refl (f : Function) : RunsFollow ctx f f [] :=
  fun _ _ r env _ h => ⟨r, env, h, option_rel_refl (option_rel_refl Val.Agree.refl) r,
    fun _ v _ hx => ⟨v, hx, .refl v⟩⟩

theorem RunsFollow.trans (h₁ : RunsFollow ctx f f₁ K₁) (h₂ : RunsFollow ctx f₁ f₂ K₂) :
    RunsFollow ctx f f₂ (K₁ ++ K₂) := by
  intro M fuel r env st h
  obtain ⟨r₁, env₁, hrun₁, hr₁, henv₁⟩ := h₁ M fuel r env st h
  obtain ⟨r₂, env₂, hrun₂, hr₂, henv₂⟩ := h₂ M fuel r₁ env₁ st hrun₁
  refine ⟨r₂, env₂, hrun₂, option_rel_trans (R := Option.Rel Val.Agree)
    (fun _ _ _ => option_rel_trans (R := Val.Agree) fun _ _ _ => Val.Agree.trans) hr₁ hr₂,
    fun x v hx hv => ?_⟩
  obtain ⟨v₁, hv₁, ha₁⟩ := henv₁ x v (fun h => hx (List.mem_append_left _ h)) hv
  obtain ⟨v₂, hv₂, ha₂⟩ := henv₂ x v₁ (fun h => hx (List.mem_append_right _ h)) hv₁
  exact ⟨v₂, hv₂, ha₁.trans ha₂⟩

theorem RunsFollow.mono (h : RunsFollow ctx f f₁ K₁) (hK : ∀ x ∈ K₁, x ∈ K₂) :
    RunsFollow ctx f f₁ K₂ := by
  intro M fuel r env st hrun
  obtain ⟨r', env', hrun', hr, henv⟩ := h M fuel r env st hrun
  exact ⟨r', env', hrun', hr, fun x v hx => henv x v fun h => hx (hK x h)⟩

end Follow

end IR
end Mcsema
