import HyperNet.Core.Commuting

/-! # Modules and their start (LogicMgr.cpp, IModule.h)

A library has the modules that `CREATE_MODULE` makes in it. `LogicMgr` keeps them by their names in
a hash map, so that they are initialised and launched in whatever order its buckets have. A
module is its name here; two modules of one name are one module twice. -/
namespace HyperNet.Kernel
open HyperNet.Core.Commuting

variable {μ σ : Type}

/-- `GetLogicModule`, in a library whose modules are created in this order: each has those before it
as its next ones. -/
def getLogicModule (created : List μ) : List μ := created.foldl (fun next m => m :: next) []

/-- The loop of `LoadModule`, and what `_modules` has after it. -/
def loadModule [DecidableEq μ] : List μ → List μ → Bool × List μ
  | [], modules => (true, modules)
  | logic :: next, modules =>
    if logic ∈ modules then (false, modules) else loadModule next (logic :: modules)

/-- The loop of `LogicMgr::Initialize` over the libraries of the configuration. -/
def loadModules [DecidableEq μ] : List (List μ) → List μ → Bool × List μ
  | [], modules => (true, modules)
  | library :: libraries, modules =>
    match loadModule (getLogicModule library) modules with
    | (true, modules) => loadModules libraries modules
    | (false, modules) => (false, modules)

/-- What the modules do with the state of the process when they are called, where `FindModule` finds
the given ones. There is no outcome where an assertion fails or a null pointer is used. -/
structure Lifecycle (μ σ : Type) where
  /-- `Initialize` -/
  init : List μ → μ → σ → Option (Bool × σ)
  launched : List μ → μ → σ → Option (Bool × σ)

/-- A call of a module, of which `LogicMgr` does not look at the result. -/
def ignoring (call : μ → σ → Option (Bool × σ)) (m : μ) (s : σ) : Option σ :=
  (call m s).map Prod.snd

/-- The loops over `_modules`, which come in some `order`. -/
def Lifecycle.start (c : Lifecycle μ σ) (modules order : List μ) (s : σ) : Option σ :=
  (runAll (ignoring (c.init modules)) order s).bind
    (runAll (ignoring (c.launched modules)) order)

/-- `LogicMgr::Initialize`; `order` is how the map is gone through. -/
def LogicMgr.init [DecidableEq μ] (c : Lifecycle μ σ) (order : List μ → List μ)
    (libraries : List (List μ)) (s : σ) : Option (Bool × σ) :=
  match loadModules libraries [] with
  | (false, _) => some (false, s)
  | (true, modules) => (c.start modules (order modules) s).map fun s => (true, s)

/-! ## Which modules there are -/

theorem getLogicModule_eq (created : List μ) : getLogicModule created = created.reverse := by
  rw [getLogicModule, List.foldl_flip_cons_eq_append, List.append_nil, List.map_id']

theorem loadModule_iff [DecidableEq μ] {chain modules : List μ} (hn : modules.Nodup) :
    ((loadModule chain modules).1 = true ↔ (chain ++ modules).Nodup) ∧
    ((chain ++ modules).Nodup → (loadModule chain modules).2 = chain.reverse ++ modules) := by
  induction chain generalizing modules with
  | nil => exact ⟨iff_of_true rfl hn, fun _ => rfl⟩
  | cons m chain ih =>
    have hmiddle : (m :: chain ++ modules).Nodup ↔ (chain ++ m :: modules).Nodup :=
      List.nodup_middle.symm
    rw [hmiddle]
    simp only [loadModule]
    split
    · next hm =>
      have hnot : ¬ (chain ++ m :: modules).Nodup := by
        intro hd
        exact (List.nodup_cons.mp hd.of_append_right).1 hm
      exact ⟨iff_of_false Bool.false_ne_true hnot, fun hd => absurd hd hnot⟩
    · next hm =>
      obtain ⟨hiff, heq⟩ := ih (List.nodup_cons.mpr ⟨hm, hn⟩)
      refine ⟨hiff, fun hd => ?_⟩
      rw [heq hd, List.reverse_cons, List.append_assoc]
      rfl

/-- The modules are loaded where no two of them have one name, and then they are all there. -/
theorem loadModules_iff [DecidableEq μ] {libraries : List (List μ)} {modules : List μ}
    (hn : modules.Nodup) :
    ((loadModules libraries modules).1 = true ↔ (libraries.flatten ++ modules).Nodup) ∧
    ((libraries.flatten ++ modules).Nodup →
      (loadModules libraries modules).2.Perm (libraries.flatten ++ modules)) := by
  induction libraries generalizing modules with
  | nil => exact ⟨iff_of_true rfl hn, fun _ => .rfl⟩
  | cons library libraries ih =>
    have ⟨hiff, heq⟩ : ((loadModule library.reverse modules).1 = true ↔
          (library.reverse ++ modules).Nodup) ∧
        ((library.reverse ++ modules).Nodup → _) := loadModule_iff hn
    rw [List.reverse_reverse] at heq
    have hperm : ((library :: libraries).flatten ++ modules).Perm
        (libraries.flatten ++ (library ++ modules)) := by
      rw [List.flatten_cons, List.append_assoc, ← List.append_assoc, ← List.append_assoc]
      exact List.perm_append_comm.append_right modules
    have hreverse : (library.reverse ++ modules).Perm (library ++ modules) :=
      (List.reverse_perm library).append_right modules
    rw [hperm.nodup_iff]
    simp only [loadModules, getLogicModule_eq]
    cases hload : loadModule library.reverse modules with
    | mk ok loaded =>
      cases ok with
      | true =>
        have hd := hiff.mp (by rw [hload])
        have hloaded : loaded = library ++ modules := by simpa [hload] using heq hd
        subst hloaded
        obtain ⟨hiff', hperm'⟩ := ih (hreverse.nodup_iff.mp hd)
        exact ⟨hiff', fun h => (hperm' h).trans hperm.symm⟩
      | false =>
        have hnot : ¬ (libraries.flatten ++ (library ++ modules)).Nodup := by
          intro hd
          have htrue := hiff.mpr (hreverse.nodup_iff.mpr hd.of_append_right)
          rw [hload] at htrue
          cases htrue
        exact ⟨iff_of_false Bool.false_ne_true hnot, fun hd => absurd hd hnot⟩

/-! ## In which order they start -/

/-- The modules come to the same in two orders that agree on those that do not commute. -/
theorem Lifecycle.start_perm (c : Lifecycle μ σ) {modules order order' : List μ}
    (hp : order.Perm order') (hn : order.Nodup)
    (hinit : ∀ a ∈ order, ∀ b ∈ order, a ≠ b →
      Commutes (ignoring (c.init modules)) a b ∨ (Before order a b ↔ Before order' a b))
    (hlaunch : ∀ a ∈ order, ∀ b ∈ order, a ≠ b →
      Commutes (ignoring (c.launched modules)) a b ∨ (Before order a b ↔ Before order' a b))
    (s : σ) : c.start modules order s = c.start modules order' s := by
  rw [start, start, runAll_perm hp hn hinit]
  exact congrArg _ (funext (runAll_perm hp hn hlaunch))

end HyperNet.Kernel
