import Mcsema.BC.Optimize.Intrinsics

/-!
# mcsema: finding and removing the ISEL globals (`FindISELs`, `RemoveISELs`)

An ISEL is a global whose initializer strips to a function with the parameter types
`(Memory *, State *, ...)` of `__remill_basic_block`.  `FindISELs` collects them;
`RemoveISELs` loops `while (isels.size())`, giving every listed ISEL internal linkage and
erasing those with `1 >= getNumUses()`, and keeps the others for the next round.

**Loop model.**  `removeISELs fuel` evaluates the loop condition at most `fuel` times and
returns `none` when the rounds run out before the list is empty.

**Results.**
* `findISELs_ok_iff`: `FindISELs` returns exactly on the modules where every `getParamType` it
  calls is in range (`ParamsInRange`); `findISELs_reads_missing_param` gives modules where it is
  not.
* `removeISELsRound_keeps`: a round keeps exactly the ISELs with two or more uses when no
  ISEL of the list uses another, so such a list is a fixed point of the loop body.
* `removeISELs_never_returns`: an ISEL with two uses makes the loop spin forever.
* `removeISELs_erases_used_global`: an ISEL with one use by an instruction is erased, and the
  instruction is left pointing at a global that is gone.
* `findISELs_initsNotListed`: on a module whose globals have distinct names, no ISEL that
  `FindISELs` returns is initialized with a listed one, in the module `RemoveISELs` receives.
* `removeISELs_returns_iff`: when no listed ISEL initializes another, the loop returns exactly
  when every ISEL has at most one use, after two tests, with the ISELs erased.
-/

namespace Mcsema
namespace Optimize

open IR

section ISEL

/-- `Value::stripPointerCasts` through pooled bitcasts, at most `fuel` of them. -/
def stripPointerCasts (m : Module) : Nat → Value → Value
  | 0, v => v
  | fuel + 1, .cexpr id =>
    match m.constants.find? (·.id == id) with
    | some { kind := .bitcast _, operands := [v], .. } => stripPointerCasts m fuel v
    | _ => .cexpr id
  | _ + 1, v => v

/-- `dyn_cast<Function>(init->stripPointerCasts())`. -/
def semanticsOf (m : Module) (init : Value) : Option Function :=
  match stripPointerCasts m (m.constants.length + 1) init with
  | .func name => m.getFunction name
  | _ => none

/-- The log line of `FindISELs` when `__remill_basic_block` is missing. -/
def noBasicBlockMessage : String :=
  "Not removing any ISELs or SEMs; can't find __remill_basic_block."

/-- Does the initializer of `isel` strip to a function with parameter types `mem`, `state`?
`getParamType` out of range is an error; the `&&` reads parameter `1` only after parameter `0`
matched. -/
def isISEL (m : Module) (memTy stateTy : Ty) (isel : GlobalVariable) : Except String Bool :=
  match isel.init.bind (semanticsOf m) with
  | none => .ok false
  | some sem =>
    match sem.type.getParamType 0 with
    | none => .error "getParamType: parameter 0 out of range"
    | some p0 =>
      if memTy = p0 then
        match sem.type.getParamType 1 with
        | none => .error "getParamType: parameter 1 out of range"
        | some p1 => .ok (stateTy = p1)
      else .ok false

/-- `FindISELs`: the names of the ISEL globals, in module order, with the log it writes. -/
def findISELs (m : Module) : Except String (List String × List String) :=
  match m.getFunction "__remill_basic_block" with
  | none => .ok ([], [noBasicBlockMessage])
  | some bb =>
    match bb.type.getParamType 0, bb.type.getParamType 1 with
    | some memTy, some stateTy => do
      let isels ← m.globals.filterM (isISEL m memTy stateTy)
      return (isels.map GlobalVariable.name, [])
    | _, _ => .error "getParamType: parameter of __remill_basic_block out of range"

/-! ### Which parameters `FindISELs` reads -/

section Params

variable {m : Module}

/-- What `FindISELs` needs so that every `getParamType` it calls is in range:
`__remill_basic_block`, when present, has two parameters, and every function a global's
initializer strips to has a parameter `0`, and a parameter `1` when parameter `0` is the memory
type (the `&&` reads parameter `1` only then). -/
structure ParamsInRange (m : Module) : Prop where
  basicBlock : ∀ bb, m.getFunction "__remill_basic_block" = some bb → 2 ≤ bb.type.params.length
  semantics : ∀ bb, m.getFunction "__remill_basic_block" = some bb → ∀ g ∈ m.globals, ∀ sem,
    g.init.bind (semanticsOf m) = some sem → 1 ≤ sem.type.params.length ∧
      (sem.type.getParamType 0 = bb.type.getParamType 0 → 2 ≤ sem.type.params.length)

theorem getParamType_eq_none_iff {t : FunctionType} {i : Nat} :
    t.getParamType i = none ↔ t.params.length ≤ i := by
  simp [FunctionType.getParamType]

theorem lt_length_of_getParamType_eq_some {t : FunctionType} {i : Nat} {p : Ty}
    (h : t.getParamType i = some p) : i < t.params.length :=
  Nat.not_le.mp fun hi => by simp [getParamType_eq_none_iff.mpr hi] at h

/-- A filter in `Except` succeeds exactly when the predicate succeeds on every element. -/
theorem filterAuxM_ok_iff {α : Type} {p : α → Except String Bool} :
    ∀ (l acc : List α), (∃ r, l.filterAuxM p acc = .ok r) ↔ ∀ x ∈ l, ∃ b, p x = .ok b
  | [], acc => by simp [List.filterAuxM, pure, Except.pure]
  | x :: l, acc => by
    simp only [List.filterAuxM, List.mem_cons, forall_eq_or_imp]
    cases hx : p x with
    | error e => simp [bind, Except.bind]
    | ok b => simpa [bind, Except.bind] using filterAuxM_ok_iff l _

theorem filterM_ok_iff {α : Type} {p : α → Except String Bool} {l : List α} :
    (∃ r, l.filterM p = .ok r) ↔ ∀ x ∈ l, ∃ b, p x = .ok b := by
  rw [← filterAuxM_ok_iff l []]
  simp only [List.filterM, bind, Except.bind]
  constructor
  · rintro ⟨r, hr⟩
    split at hr
    · cases hr
    · exact ⟨_, ‹_›⟩
  · rintro ⟨r, hr⟩
    exact ⟨r.reverse, by rw [hr]; rfl⟩

/-- An element a successful filter keeps came from the list, and the predicate accepted it. -/
theorem mem_filterAuxM_ok {α : Type} {p : α → Except String Bool} :
    ∀ {l acc r : List α}, l.filterAuxM p acc = .ok r → ∀ x ∈ r, x ∈ acc ∨ x ∈ l ∧ p x = .ok true
  | [], acc, r, h => by
    cases h
    exact fun x hx => .inl hx
  | y :: l, acc, r, h => by
    simp only [List.filterAuxM, bind, Except.bind] at h
    cases hy : p y with
    | error e => simp [hy] at h
    | ok b =>
      rw [hy] at h
      intro x hx
      rcases mem_filterAuxM_ok h x hx with hx | ⟨hx, hpx⟩
      · cases b
        · exact .inl hx
        · rcases List.mem_cons.mp hx with rfl | hx
          · exact .inr ⟨List.mem_cons_self _ _, hy⟩
          · exact .inl hx
      · exact .inr ⟨List.mem_cons_of_mem _ hx, hpx⟩

theorem mem_filterM_ok {α : Type} {p : α → Except String Bool} {l r : List α}
    (h : l.filterM p = .ok r) {x : α} (hx : x ∈ r) : x ∈ l ∧ p x = .ok true := by
  simp only [List.filterM, bind, Except.bind] at h
  split at h
  · cases h
  · cases h
    exact (mem_filterAuxM_ok ‹_› x (List.mem_reverse.mp hx)).resolve_left (List.not_mem_nil x)

/-- The test of one global reads only parameters that exist exactly when the function its
initializer strips to has a parameter `0`, and a parameter `1` if parameter `0` matched. -/
theorem isISEL_ok_iff {memTy stateTy : Ty} {g : GlobalVariable} :
    (∃ b, isISEL m memTy stateTy g = .ok b) ↔ ∀ sem, g.init.bind (semanticsOf m) = some sem →
      1 ≤ sem.type.params.length ∧ (sem.type.getParamType 0 = some memTy →
        2 ≤ sem.type.params.length) := by
  unfold isISEL
  cases hsem : g.init.bind (semanticsOf m) with
  | none => simp
  | some sem =>
    simp only [Option.some.injEq, forall_eq']
    cases h0 : sem.type.getParamType 0 with
    | none => simpa using getParamType_eq_none_iff.mp h0
    | some p0 =>
      have h1 : 1 ≤ sem.type.params.length := lt_length_of_getParamType_eq_some h0
      by_cases hp : memTy = p0
      · subst hp
        cases h1' : sem.type.getParamType 1 with
        | none =>
          have := getParamType_eq_none_iff.mp h1'
          simp only [if_true, reduceCtorEq, exists_false, false_iff, not_and, forall_const]
          omega
        | some p1 =>
          have h2 : 2 ≤ sem.type.params.length := lt_length_of_getParamType_eq_some h1'
          simp [h2, h1]
      · simp [hp, h1, Ne.symm hp]

/-- `FindISELs` reads only parameters that exist, and returns, exactly on the modules with
`ParamsInRange`: on every other module some `getParamType` is out of range. -/
theorem findISELs_ok_iff : (∃ r, findISELs m = .ok r) ↔ ParamsInRange m := by
  unfold findISELs
  cases hbb : m.getFunction "__remill_basic_block" with
  | none =>
    exact ⟨fun _ => ⟨fun _ h => (nomatch hbb.symm.trans h), fun _ h => (nomatch hbb.symm.trans h)⟩,
      fun _ => ⟨_, rfl⟩⟩
  | some bb =>
    have hrange : ParamsInRange m ↔ 2 ≤ bb.type.params.length ∧ ∀ g ∈ m.globals, ∀ sem,
        g.init.bind (semanticsOf m) = some sem → 1 ≤ sem.type.params.length ∧
          (sem.type.getParamType 0 = bb.type.getParamType 0 → 2 ≤ sem.type.params.length) :=
      ⟨fun h => ⟨h.basicBlock bb hbb, h.semantics bb hbb⟩,
        fun h => ⟨fun _ h' => by cases hbb.symm.trans h'; exact h.1,
          fun _ h' => by cases hbb.symm.trans h'; exact h.2⟩⟩
    rw [hrange]
    dsimp only
    cases h0 : bb.type.getParamType 0 with
    | none =>
      have := getParamType_eq_none_iff.mp h0
      simp only [reduceCtorEq, exists_false, false_iff, not_and]
      omega
    | some memTy =>
      cases h1 : bb.type.getParamType 1 with
      | none =>
        have := getParamType_eq_none_iff.mp h1
        simp only [reduceCtorEq, exists_false, false_iff, not_and]
        omega
      | some stateTy =>
        rw [← forall₂_congr fun g _ => isISEL_ok_iff, ← filterM_ok_iff]
        have hlen : 2 ≤ bb.type.params.length := lt_length_of_getParamType_eq_some h1
        simp only [hlen, true_and]
        cases m.globals.filterM (isISEL m memTy stateTy) <;> simp [Functor.map, Except.map]

end Params

/-- A body-less function `Memory *name(params)`. -/
def declareFunction (name : String) (params : List Ty) : Function :=
  { name, type := { ret := .memory, params }, linkage := .external, attrs := [], blocks := [] }

/-- A module whose data holds a pointer to the function `stub` with parameters `params`. -/
def stubPointer (params : List Ty) : Module where
  functions :=
    [ declareFunction "__remill_basic_block" [.memory, .state, .int 64],
      { name := "stub", type := { ret := .void, params }, linkage := .external, attrs := [],
        blocks := [] } ]
  globals := [{ name := "stub_ptr", linkage := .external, init := some (.func "stub") }]
  constants := []

/-- A global pointing to a function without parameters makes `FindISELs` read parameter `0`
out of range; one pointing to a function whose only parameter is a `Memory *` makes it read
parameter `1` out of range; with any other single parameter the `&&` stops before it. -/
theorem findISELs_reads_missing_param :
    findISELs (stubPointer []) = .error "getParamType: parameter 0 out of range" ∧
      findISELs (stubPointer [.memory]) = .error "getParamType: parameter 1 out of range" ∧
      findISELs (stubPointer [.int 32]) = .ok ([], []) :=
  ⟨rfl, rfl, rfl⟩

/-- The body of `for (auto isel : isels)`: `next_isels` so far and the module. -/
def removeISELsStep (acc : List String × Module) (isel : String) : List String × Module :=
  let m := acc.2.setGlobalLinkage isel .internal
  if 1 ≥ m.getNumUses (.global isel) then (acc.1, m.eraseGlobal isel)
  else (acc.1 ++ [isel], m)

/-- One round of the loop: the ISELs kept for the next round, and the module. -/
def removeISELsRound (isels : List String) (m : Module) : List String × Module :=
  isels.foldl removeISELsStep ([], m)

/-- `RemoveISELs`: the `while (isels.size())` loop, tested at most `fuel` times. -/
def removeISELs : Nat → List String → Module → Option Module
  | 0, _, _ => none
  | fuel + 1, isels, m =>
    if isels.isEmpty then some m
    else removeISELs fuel (removeISELsRound isels m).1 (removeISELsRound isels m).2

/-- A round over ISELs that all have two or more uses keeps every one of them and leaves every
operand slot as it was. -/
theorem removeISELsRound_keeps
    (isels : List String)
    (m : Module)
    (h : ∀ g ∈ isels, 2 ≤ m.getNumUses (.global g)) :
    (removeISELsRound isels m).1 = isels ∧
      (removeISELsRound isels m).2.operands = m.operands := by
  suffices key : ∀ (acc : List String) (m' : Module), m'.operands = m.operands →
      (isels.foldl removeISELsStep (acc, m')).1 = acc ++ isels ∧
        (isels.foldl removeISELsStep (acc, m')).2.operands = m.operands from key [] m rfl
  induction isels with
  | nil => simp
  | cons g gs ih =>
      intro acc m' hm'
      have hg : ¬ 1 ≥ (m'.setGlobalLinkage g .internal).getNumUses (.global g) := by
        have := h g (by simp)
        simp only [Module.getNumUses, Module.operands_setGlobalLinkage, hm'] at this ⊢
        omega
      simp only [List.foldl_cons, removeISELsStep, hg, if_false]
      have := ih (fun g' hg' => h g' (by simp [hg'])) (acc ++ [g])
        (m'.setGlobalLinkage g .internal) (by simp [hm'])
      simpa using this

/-- `RemoveISELs` never leaves its loop once every listed ISEL has two or more uses. -/
theorem removeISELs_spins
    (isels : List String)
    (hne : isels ≠ [])
    (m : Module)
    (h : ∀ g ∈ isels, 2 ≤ m.getNumUses (.global g)) :
    ∀ fuel, removeISELs fuel isels m = none := by
  intro fuel
  induction fuel generalizing m with
  | zero => rfl
  | succ n ih =>
      obtain ⟨hkeep, hops⟩ := removeISELsRound_keeps isels m h
      have hne' : isels.isEmpty = false := by simpa using hne
      simp only [removeISELs, hne', hkeep]
      exact ih _ (fun g hg => by simpa [Module.getNumUses, hops] using h g hg)

/-! ### When the loop of `RemoveISELs` returns -/

theorem count_flatMap_init_filter {gs : List GlobalVariable} (p : GlobalVariable → Bool)
    {v : Value} (h : ∀ g ∈ gs, p g = false → g.init ≠ some v) :
    ((gs.filter p).flatMap fun g => g.init.toList).count v =
      (gs.flatMap fun g => g.init.toList).count v := by
  induction gs with
  | nil => rfl
  | cons g gs ih =>
    have ih := ih fun g' hg' => h g' (List.mem_cons_of_mem _ hg')
    by_cases hp : p g
    · simp [List.filter_cons, hp, ih]
    · have hg := h g (List.mem_cons_self _ _) (by simpa using hp)
      have h0 : g.init.toList.count v = 0 := List.count_eq_zero.mpr fun hv => hg (by simpa using hv)
      rw [List.filter_cons_of_neg (by simpa using hp), ih, List.flatMap_cons, List.count_append, h0,
        Nat.zero_add]

/-- Erasing globals changes the uses of a value only through their initializers. -/
theorem getNumUses_filterGlobals (m : Module) (p : GlobalVariable → Bool) {v : Value}
    (h : ∀ g ∈ m.globals, p g = false → g.init ≠ some v) :
    ({ m with globals := m.globals.filter p } : Module).getNumUses v = m.getNumUses v := by
  simp only [Module.getNumUses, Module.operands, List.count_append]
  rw [count_flatMap_init_filter p h]
  rfl

/-- No listed ISEL is initialized with a listed ISEL: then erasing one leaves the uses of the
others alone. -/
def InitsNotListed (isels : List String) (m : Module) : Prop :=
  ∀ g ∈ m.globals, g.name ∈ isels → ∀ n ∈ isels, g.init ≠ some (.global n)

instance (isels : List String) (m : Module) : Decidable (InitsNotListed isels m) :=
  inferInstanceAs (Decidable (∀ g ∈ m.globals, _))

/-- `Value::stripPointerCasts` leaves a global as it is. -/
@[simp] theorem stripPointerCasts_global (m : Module) (fuel : Nat) (n : String) :
    stripPointerCasts m fuel (.global n) = .global n := by
  cases fuel <;> rfl

/-- An ISEL's initializer strips to a function, so it is no global. -/
theorem init_ne_global_of_isISEL {m : Module} {memTy stateTy : Ty} {g : GlobalVariable}
    (h : isISEL m memTy stateTy g = .ok true) (n : String) : g.init ≠ some (.global n) := by
  intro hinit
  simp [isISEL, hinit, semanticsOf] at h

/-- Every name `FindISELs` returns is the name of a global of the module that passed `isISEL`. -/
theorem mem_findISELs {m : Module} {isels log : List String} (h : findISELs m = .ok (isels, log))
    {n : String} (hn : n ∈ isels) :
    ∃ g ∈ m.globals, g.name = n ∧ ∃ memTy stateTy, isISEL m memTy stateTy g = .ok true := by
  unfold findISELs at h
  split at h
  · cases h; cases hn
  · split at h
    · simp only [bind, Except.bind, pure, Except.pure] at h
      split at h
      · cases h
      · cases h
        obtain ⟨g, hg, rfl⟩ := List.mem_map.mp hn
        obtain ⟨hg, hisel⟩ := mem_filterM_ok ‹_› hg
        exact ⟨g, hg, rfl, _, _, hisel⟩
    · cases h

/-- The ISELs `FindISELs` returns meet `InitsNotListed` on the module `RemoveISELs` receives
when the globals have distinct names, as LLVM keeps them: a listed global is an ISEL, whose
initializer strips to a function and so is no global. -/
theorem findISELs_initsNotListed {m : Module} (hnames : (m.globals.map GlobalVariable.name).Nodup)
    {isels log : List String} (h : findISELs m = .ok (isels, log)) :
    InitsNotListed isels (removeIntrinsics m) := by
  intro g hg hgn n _
  obtain ⟨g₀, hg₀, hname, _, _, hisel⟩ := mem_findISELs h hgn
  have hg₀g : g₀ = g :=
    List.inj_on_of_nodup_map hnames hg₀ (globals_removeIntrinsics_subset m hg) hname
  exact hg₀g ▸ init_ne_global_of_isISEL hisel n

section Loop

variable {isels : List String} {m : Module}

theorem InitsNotListed.setGlobalLinkage (h : InitsNotListed isels m) (n : String) (l : Linkage) :
    InitsNotListed isels (m.setGlobalLinkage n l) := by
  intro g hg
  obtain ⟨g₀, hg₀, rfl⟩ := List.mem_map.mp hg
  split <;> exact h g₀ hg₀

theorem InitsNotListed.eraseGlobal (h : InitsNotListed isels m) (n : String) :
    InitsNotListed isels (m.eraseGlobal n) :=
  fun g hg => h g (List.mem_filter.mp hg).1

/-- Erasing a listed ISEL leaves the uses of every listed ISEL as they were. -/
theorem InitsNotListed.getNumUses_eraseGlobal (h : InitsNotListed isels m) {n n' : String}
    (hn : n ∈ isels) (hn' : n' ∈ isels) :
    (m.eraseGlobal n).getNumUses (.global n') = m.getNumUses (.global n') :=
  getNumUses_filterGlobals m _ fun g hg hp =>
    h g hg (by rw [show g.name = n by simpa using hp]; exact hn) n' hn'

theorem eraseGlobal_setGlobalLinkage (m : Module) (n : String) (l : Linkage) :
    (m.setGlobalLinkage n l).eraseGlobal n = m.eraseGlobal n := by
  simp only [Module.eraseGlobal, Module.setGlobalLinkage, Module.mk.injEq, true_and, and_true]
  generalize m.globals = gs
  induction gs with
  | nil => rfl
  | cons g gs ih => by_cases hg : g.name = n <;> simp [List.filter_cons, hg, ih]

/-- A round keeps exactly the ISELs with two or more uses, and leaves the uses of every listed
ISEL as they were. -/
theorem removeISELsRound_kept (h : InitsNotListed isels m) :
    (removeISELsRound isels m).1 = isels.filter (fun n => 2 ≤ m.getNumUses (.global n)) ∧
      ∀ n ∈ isels, (removeISELsRound isels m).2.getNumUses (.global n) =
        m.getNumUses (.global n) := by
  suffices key : ∀ rest : List String, (∀ n ∈ rest, n ∈ isels) → ∀ (kept : List String) (m' : Module),
      InitsNotListed isels m' →
      (∀ n ∈ isels, m'.getNumUses (.global n) = m.getNumUses (.global n)) →
      (rest.foldl removeISELsStep (kept, m')).1 =
          kept ++ rest.filter (fun n => 2 ≤ m.getNumUses (.global n)) ∧
        ∀ n ∈ isels, (rest.foldl removeISELsStep (kept, m')).2.getNumUses (.global n) =
          m.getNumUses (.global n) from
    key isels (fun _ hn => hn) [] m h (fun _ _ => rfl)
  intro rest
  induction rest with
  | nil => intro _ kept m' _ huses; exact ⟨by simp, huses⟩
  | cons n rest ih =>
    intro hsub kept m' hinit huses
    have hn := hsub n (List.mem_cons_self _ _)
    have hrest := fun n' hn' => hsub n' (List.mem_cons_of_mem _ hn')
    have hlink := hinit.setGlobalLinkage n .internal
    simp only [List.foldl_cons, removeISELsStep, Module.getNumUses_setGlobalLinkage, huses n hn]
    by_cases hle : 1 ≥ m.getNumUses (.global n)
    · rw [if_pos hle, List.filter_cons_of_neg (by simp; omega)]
      exact ih hrest kept _ (hlink.eraseGlobal n) fun n' hn' => by
        rw [hlink.getNumUses_eraseGlobal hn hn', Module.getNumUses_setGlobalLinkage, huses n' hn']
    · rw [if_neg hle, List.filter_cons_of_pos (by simpa using hle)]
      simpa using ih hrest (kept ++ [n]) _ hlink fun n' hn' => by
        rw [Module.getNumUses_setGlobalLinkage, huses n' hn']

/-- When every listed ISEL has at most one use, a round erases every one of them and keeps
none. -/
theorem removeISELsRound_of_le_one (h : InitsNotListed isels m)
    (hle : ∀ n ∈ isels, m.getNumUses (.global n) ≤ 1) :
    removeISELsRound isels m = ([], { m with globals := m.globals.filter fun g => g.name ∉ isels }) := by
  suffices key : ∀ pre rest : List String, pre ++ rest = isels →
      rest.foldl removeISELsStep ([], { m with globals := m.globals.filter fun g => g.name ∉ pre }) =
        ([], { m with globals := m.globals.filter fun g => g.name ∉ isels }) by
    have hnil : m.globals.filter (fun g => g.name ∉ ([] : List String)) = m.globals := by simp
    have := key [] isels rfl
    rw [hnil] at this
    exact this
  intro pre rest
  induction rest generalizing pre with
  | nil => intro h'; simp at h'; subst h'; rfl
  | cons n rest ih =>
    intro hpre
    have hn : n ∈ isels := hpre ▸ List.mem_append_right _ (List.mem_cons_self _ _)
    have huses : ({ m with globals := m.globals.filter fun g => g.name ∉ pre } : Module).getNumUses
        (.global n) = m.getNumUses (.global n) :=
      getNumUses_filterGlobals m _ fun g hg hp => h g hg
        (hpre ▸ List.mem_append_left _ (by simpa using hp)) n hn
    have hstep : removeISELsStep ([], { m with globals := m.globals.filter fun g => g.name ∉ pre }) n =
        ([], { m with globals := m.globals.filter fun g => g.name ∉ pre ++ [n] }) := by
      rw [removeISELsStep, if_pos (show 1 ≥ _ by
        rw [Module.getNumUses_setGlobalLinkage, huses]; exact hle n hn),
        eraseGlobal_setGlobalLinkage]
      simp only [Module.eraseGlobal, List.filter_filter, List.mem_append, List.mem_singleton,
        not_or, Bool.decide_and, Bool.and_comm, bne_iff_ne, ne_eq, decide_not]
      rfl
    rw [List.foldl_cons, hstep]
    exact ih (pre ++ [n]) (by simpa using hpre)

end Loop

/-- A lifted module whose ISEL `ISEL_ADD` (initialized with the semantics `ADD`) is loaded
by `loads` instructions of `sub_401000`. -/
def iselLoaded (loads : Nat) : Module where
  functions :=
    [ declareFunction "__remill_basic_block" [.memory, .state, .int 64],
      declareFunction "ADD" [.memory, .state, .int 32],
      { name := "sub_401000"
        type := { ret := .memory, params := [.memory, .state, .int 64] }
        linkage := .external
        attrs := []
        blocks :=
          [ { label := 0
              insts :=
                (List.range loads).map (fun i =>
                  { id := i + 1, op := .load, ty := .ptr .void,
                    operands := [.global "ISEL_ADD"] }) ++
                [{ id := 0, op := .ret, ty := .void, operands := [.arg 0] }] } ] } ]
  globals := [{ name := "ISEL_ADD", linkage := .external, init := some (.func "ADD") }]
  constants := []

/-- With two loads of its ISEL, `OptimizeModule` never gets past `RemoveISELs`. -/
theorem removeISELs_never_returns :
    findISELs (iselLoaded 2) = .ok (["ISEL_ADD"], []) ∧
      ∀ fuel, removeISELs fuel ["ISEL_ADD"] (removeIntrinsics (iselLoaded 2)) = none :=
  ⟨rfl, removeISELs_spins _ (by simp) _ (by decide)⟩

/-- With one load of its ISEL, `RemoveISELs` erases the global the load still reads. -/
theorem removeISELs_erases_used_global :
    findISELs (iselLoaded 1) = .ok (["ISEL_ADD"], []) ∧
      (removeIntrinsics (iselLoaded 1)).getNumUses (.global "ISEL_ADD") = 1 ∧
      ∃ m', removeISELs 2 ["ISEL_ADD"] (removeIntrinsics (iselLoaded 1)) = some m' ∧
        m'.Dangling :=
  ⟨rfl, by decide, _, rfl, .global "ISEL_ADD", by decide, .inl ⟨_, rfl, rfl⟩⟩

/-- `RemoveISELs` returns exactly when every listed ISEL has at most one use, provided no listed
ISEL is initialized with a listed one (as for the ISELs `FindISELs` returns, whose initializers
strip to functions: `findISELs_initsNotListed`).  It then returns after two tests of its condition, with exactly the listed
globals erased; an ISEL with two or more uses is kept by every round, and the loop never ends. -/
theorem removeISELs_returns_iff
    (isels : List String)
    (m : Module)
    (h : InitsNotListed isels m) :
    ((∃ fuel m', removeISELs fuel isels m = some m') ↔
        ∀ n ∈ isels, m.getNumUses (.global n) ≤ 1) ∧
      ((∀ n ∈ isels, m.getNumUses (.global n) ≤ 1) →
        removeISELs 2 isels m =
          some { m with globals := m.globals.filter fun g => g.name ∉ isels }) := by
  have hret : (∀ n ∈ isels, m.getNumUses (.global n) ≤ 1) →
      removeISELs 2 isels m =
        some { m with globals := m.globals.filter fun g => g.name ∉ isels } := by
    intro hle
    cases isels with
    | nil => simp [removeISELs]
    | cons n rest =>
      simp only [removeISELs, List.isEmpty_cons, Bool.false_eq_true, if_false,
        removeISELsRound_of_le_one h hle, List.isEmpty_nil, if_true]
  refine ⟨⟨?_, fun hle => ⟨2, _, hret hle⟩⟩, hret⟩
  rintro ⟨fuel, m', hm'⟩
  by_contra hnot
  push_neg at hnot
  obtain ⟨n, hn, h2⟩ := hnot
  -- the ISEL with two uses is kept, with its uses, by the first round and then by every round
  obtain ⟨hkept, huses⟩ := removeISELsRound_kept h
  have hnkept : n ∈ (removeISELsRound isels m).1 := by
    rw [hkept]; exact List.mem_filter.mpr ⟨hn, by simpa using h2⟩
  have hspin := removeISELs_spins _ (List.ne_nil_of_mem hnkept) (removeISELsRound isels m).2
    fun g hg => by
      rw [hkept] at hg
      obtain ⟨hg, hg2⟩ := List.mem_filter.mp hg
      rw [huses g hg]; simpa using hg2
  cases fuel with
  | zero => cases hm'
  | succ fuel =>
    rw [removeISELs, if_neg (by simpa using List.ne_nil_of_mem hn), hspin] at hm'
    cases hm'

/-- On the ISELs `FindISELs` returns, the loop ends with one load of `ISEL_ADD` and never with
two. -/
theorem iselLoaded_returns_iff :
    InitsNotListed ["ISEL_ADD"] (removeIntrinsics (iselLoaded 1)) ∧
      (∃ fuel m', removeISELs fuel ["ISEL_ADD"] (removeIntrinsics (iselLoaded 1)) = some m') ∧
      removeISELs 2 ["ISEL_ADD"] (removeIntrinsics (iselLoaded 1)) =
        some { removeIntrinsics (iselLoaded 1) with
          globals := (removeIntrinsics (iselLoaded 1)).globals.filter
            fun g => g.name ∉ ["ISEL_ADD"] } ∧
      ¬ ∃ fuel m', removeISELs fuel ["ISEL_ADD"] (removeIntrinsics (iselLoaded 2)) = some m' := by
  have hinit : ∀ k, InitsNotListed ["ISEL_ADD"] (removeIntrinsics (iselLoaded k)) := fun k =>
    findISELs_initsNotListed (m := iselLoaded k) (List.nodup_singleton _) rfl
  have h₁ := removeISELs_returns_iff _ _ (hinit 1)
  have h₂ := removeISELs_returns_iff _ _ (hinit 2)
  have hle : ∀ n ∈ ["ISEL_ADD"], (removeIntrinsics (iselLoaded 1)).getNumUses (.global n) ≤ 1 := by
    decide
  have hgt : ¬ ∀ n ∈ ["ISEL_ADD"], (removeIntrinsics (iselLoaded 2)).getNumUses (.global n) ≤ 1 := by
    decide
  exact ⟨hinit 1, h₁.1.2 hle, h₁.2 hle, fun hret => hgt (h₂.1.1 hret)⟩

end ISEL

end Optimize
end Mcsema
