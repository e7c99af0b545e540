import ErrorReturns.Context
import ErrorReturns.Proofs.Checked

/-!
# The order in which functions are visited

A stage that goes through the functions under analysis does so module by module. Here the
modules may come in any order (`Context.foldModules`). If they all exist, the stage is a single
run over the functions that they list, one module after the other; in the order of the program
these are the functions of `Context.inModuleOrder`.
-/

namespace ErrorReturns

/-- Runs over lists that are found one after the other are one run over all of them. -/
theorem Checked.foldlM_foldlM_eq_flatten {α β σ : Type} {g : α → Checked (List β)}
    {step : σ → β → Checked σ} {l : List α} {yss : List (List β)} (h : l.mapM g = .ok yss) (s : σ) :
    l.foldlM (fun s x => do (← g x).foldlM step s) s = yss.flatten.foldlM step s := by
  induction l generalizing yss s with
  | nil =>
    obtain rfl := Except.ok.inj h
    rfl
  | cons x rest ih =>
    rw [List.mapM_cons] at h
    simp only [bind_eq_ok_iff, Checked.pure_eq_ok, Except.ok.injEq] at h
    obtain ⟨ys, hys, rest', hrest, rfl⟩ := h
    rw [List.foldlM_cons, hys, ok_bind, List.flatten_cons, List.foldlM_append]
    exact congrArg (ys.foldlM step s >>= ·) (funext fun s' => ih hrest s')

namespace Context

variable (c : Context) {σ : Type} (step : σ → FuncId → Checked σ) (init : σ)

/-- Carry a state through the functions under analysis of some modules. -/
def foldModules (ms : List ModuleId) : Checked σ :=
  ms.foldlM (fun s m => do (← c.analysedIn m).foldlM step s) init

theorem foldAnalysed_eq_foldModules :
    c.foldAnalysed step init = c.foldModules step init c.program.moduleIds := rfl

/-- The functions under analysis in the order of their modules. -/
def inModuleOrder : List FuncId :=
  c.program.modules.toList.flatMap fun m => m.functions.filter c.isAnalysed

theorem mapM_analysedIn_moduleIds : c.program.moduleIds.mapM c.analysedIn =
    .ok (c.program.modules.toList.map fun m => m.functions.filter c.isAnalysed) := by
  rw [Checked.mapM_eq_ok_iff, Program.moduleIds, List.map_map, List.map_map]
  refine List.ext_getElem (by simp) fun i hi hi' => ?_
  rw [List.length_map, List.length_range] at hi
  simp [analysedIn, Arena.module, hi]

/-- **A stage is one run** over the functions in the order of their modules. -/
theorem foldAnalysed_eq_foldlM : c.foldAnalysed step init = c.inModuleOrder.foldlM step init := by
  rw [foldAnalysed_eq_foldModules, foldModules,
    Checked.foldlM_foldlM_eq_flatten c.mapM_analysedIn_moduleIds]
  rfl

end Context

end ErrorReturns
