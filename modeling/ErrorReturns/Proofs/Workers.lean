import ErrorReturns.Finding.Incorrect
import ErrorReturns.Proofs.Learning.Gathering
import ErrorReturns.Proofs.Schedule

/-!
# Stages that workers share

A stage goes through the functions under analysis in the order of their modules. The modules can
also be shared out among workers, as many as the settings allow (`Schedule.visit`). Then the
functions of different modules are looked at in an order that depends on the turns of the workers,
and so is the order in which what they contribute is added up.

Neither is seen from outside. What a function contributes depends on no other function, so that the
workers come to an end without a failure exactly if the stage has a result
(`Context.workers_succeed_iff`). Evidence can be added up in any order, and so the two stages of
learning that workers share come to what they come to in order (`Context.gathered_by_workers`).
-/

namespace ErrorReturns

open Checked

namespace Context

variable {c : Context} {α : Type} {contribution : FuncId → Checked α}

/-! ## The work on a module -/

variable (c contribution) in
/-- **The work on a module**: what each of its functions under analysis contributes. -/
def workOn (m : Nat) : Checked Unit := do
  let _ ← (← c.analysedIn ⟨m⟩).mapM contribution
  return ()

/-- The functions in the order of modules are those of some module. -/
theorem mem_inModuleOrder_iff {f : FuncId} :
    f ∈ c.inModuleOrder ↔ ∃ m fs, c.analysedIn ⟨m⟩ = .ok fs ∧ f ∈ fs := by
  unfold inModuleOrder
  rw [List.mem_flatMap]
  constructor
  · rintro ⟨m, hm, hf⟩
    obtain ⟨n, hn⟩ := List.mem_iff_getElem?.mp hm
    rw [Array.getElem?_toList] at hn
    exact ⟨n, _, bind_eq_ok_iff.mpr ⟨m, Arena.module_eq_ok_iff.mpr hn, rfl⟩, hf⟩
  · rintro ⟨n, fs, hfs, hf⟩
    simp only [analysedIn, bind_eq_ok_iff, pure_eq_ok, Except.ok.injEq] at hfs
    obtain ⟨m, hm, rfl⟩ := hfs
    exact ⟨m, Array.mem_toList_iff.mpr (Array.mem_of_getElem? (Arena.module_eq_ok_iff.mp hm)), hf⟩

theorem contributes_of_workOn {m : Nat} (h : c.workOn contribution m = .ok ()) {fs : List FuncId}
    (hfs : c.analysedIn ⟨m⟩ = .ok fs) {f : FuncId} (hf : f ∈ fs) :
    ∃ y, contribution f = .ok y := by
  rw [workOn, hfs, ok_bind] at h
  obtain ⟨ys, hys, -⟩ := bind_eq_ok_iff.mp h
  obtain ⟨y, -, hy⟩ := exists_mem_of_mapM hys hf
  exact ⟨y, hy⟩

/-- If the work on a module fails, one of its functions does. -/
theorem fails_of_workOn {m : Nat} (hm : m < c.program.modules.size) {fault : Fault}
    (h : c.workOn contribution m = .error fault) :
    ∃ f ∈ c.inModuleOrder, contribution f = .error fault := by
  obtain ⟨fs, hfs⟩ : ∃ fs, c.analysedIn ⟨m⟩ = .ok fs := ⟨_, bind_eq_ok_iff.mpr
    ⟨_, Arena.module_eq_ok_iff.mpr (Array.getElem?_eq_getElem hm), rfl⟩⟩
  have hwork : Meets (fun e => ∃ f ∈ fs, contribution f = .error e) (fun _ => True)
      (c.workOn contribution m) := by
    rw [workOn, hfs, ok_bind]
    refine (meets_mapM (Q := fun _ => True) fun f hf => ?_).map fun _ _ => trivial
    cases hcontribution : contribution f with
    | ok y => trivial
    | error e => exact ⟨f, hf, hcontribution⟩
  rw [h] at hwork
  obtain ⟨f, hf, hfault⟩ := hwork
  exact ⟨f, mem_inModuleOrder_iff.mpr ⟨m, fs, hfs, hf⟩, hfault⟩

/-! ## Any number of workers -/

section Shared

variable {v : Schedule.Visit Fault}
  (hv : v.Settled c.program.modules.size (c.workOn contribution))
include hv

/-- A failure is that of some function. -/
theorem fails_of_visit {fault : Fault} (h : v.failure = some fault) :
    ∃ f ∈ c.inModuleOrder, contribution f = .error fault := by
  obtain ⟨m, hm, hfault⟩ := hv.failed fault h
  rw [hv.visited_eq, List.mem_range] at hm
  exact fails_of_workOn (Nat.lt_of_lt_of_le hm hv.length_le) hfault

/-- **Workers succeed** exactly if every function contributes something, whoever looks at it and
in which order. -/
theorem workers_succeed_iff :
    v.failure = none ↔ ∃ ys, c.inModuleOrder.mapM contribution = .ok ys := by
  constructor
  · intro hnone
    obtain ⟨hall, hok⟩ := hv.ok hnone
    refine (exists_mapM_eq_ok fun f hf => ?_).imp fun _ h => h.1
    obtain ⟨m, fs, hfs, hf⟩ := mem_inModuleOrder_iff.mp hf
    obtain ⟨x, hx, -⟩ := bind_eq_ok_iff.mp hfs
    have hlt := (Array.getElem?_eq_some_iff.mp (Arena.module_eq_ok_iff.mp hx)).1
    refine contributes_of_workOn (hok m ?_) hfs hf
    rw [hv.visited_eq, hall]
    exact List.mem_range.mpr hlt
  · rintro ⟨ys, hys⟩
    refine Option.eq_none_iff_forall_ne_some.mpr fun fault hfault => ?_
    obtain ⟨f, hf, herror⟩ := fails_of_visit hv hfault
    obtain ⟨y, -, hy⟩ := exists_mem_of_mapM hys hf
    cases herror.symm.trans hy

end Shared

/-! ## Learning -/

namespace Separate

variable {contribution : Evidence → FuncId → Checked Evidence} (hsep : Separate contribution)
include hsep

/-- **Contributions may be found out beforehand**: what distinct functions add one after the other
is what each of them contributes to the evidence at the beginning. -/
theorem foldlM_eq {fs : List FuncId} (hfs : fs.Nodup) (e : Evidence) :
    fs.foldlM (addEvidence contribution) e =
      fs.mapM (contribution e) >>= fun as => .ok (as.foldl Evidence.merge e) := by
  induction fs generalizing e with
  | nil => rfl
  | cons f rest ih =>
    obtain ⟨hnew, hrest⟩ := List.nodup_cons.mp hfs
    rw [List.foldlM_cons, List.mapM_cons, addEvidence]
    cases hf : contribution e f with
    | error fault => rfl
    | ok a =>
      have hsame : rest.mapM (contribution (e.merge a)) = rest.mapM (contribution e) :=
        mapM_congr fun g hg => hsep.unaffected (hsep.decides hf) fun heq => hnew (heq ▸ hg)
      rw [ok_bind, pure_eq_ok, ok_bind, ih hrest, hsame]
      cases rest.mapM (contribution e) <;> rfl

/-- **Learning by workers.** Let any number of workers share the modules, in any order of turns, and
add what functions contribute in any order. No worker fails exactly if the stage has a result in
order, and then the evidence is the same. -/
theorem shared_out (hp : c.program.toArena.Owned) {e : Evidence} {v : Schedule.Visit Fault}
    (hv : v.Settled c.program.modules.size (c.workOn (contribution e))) :
    (v.failure = none ↔ ∃ e', c.foldAnalysed (addEvidence contribution) e = .ok e') ∧
    ∀ e', c.foldAnalysed (addEvidence contribution) e = .ok e' →
      ∀ fs, c.inModuleOrder.Perm fs →
        ∃ as, fs.mapM (contribution e) = .ok as ∧ as.foldl Evidence.merge e = e' := by
  have hnodup := nodup_inModuleOrder hp
  rw [workers_succeed_iff hv, foldAnalysed_eq_foldlM]
  refine ⟨?_, fun e' h fs hperm => ?_⟩
  · rw [hsep.foldlM_eq hnodup]
    constructor
    · rintro ⟨as, has⟩
      exact ⟨_, bind_eq_ok_iff.mpr ⟨as, has, rfl⟩⟩
    · rintro ⟨e', h⟩
      obtain ⟨as, has, -⟩ := bind_eq_ok_iff.mp h
      exact ⟨as, has⟩
  · have hsame := eq_ok_of_toOption_eq (hsep.toOption_foldlM_eq_of_perm hperm e) h
    rw [hsep.foldlM_eq (hperm.nodup_iff.mp hnodup)] at hsame
    obtain ⟨as, has, hmerged⟩ := bind_eq_ok_iff.mp hsame
    exact ⟨as, has, Except.ok.inj hmerged⟩

end Separate

/-- **The two stages of learning that workers share**, with as many workers as the settings allow. A
failure is reported exactly if the stage has no result. -/
theorem gathered_by_workers (hp : c.program.toArena.Owned) :
    ((Schedule.visit c.settings.threads c.program.modules.size
        (c.workOn c.similarityEvidence)).failure = none ↔ ∃ e, c.gatherSimilar = .ok e) ∧
    ∀ handlers e, (Schedule.visit c.settings.threads c.program.modules.size
        (c.workOn fun f => c.handlerEvidence f handlers (e.matchedIn f))).failure = none ↔
      ∃ e', c.gatherHandlers handlers e = .ok e' :=
  ⟨(separate_similar.shared_out hp (Schedule.settled_visit _ _ _)).1, fun handlers _ =>
    ((separate_byHandlers handlers).shared_out hp (Schedule.settled_visit _ _ _)).1⟩

/-! ## Finding -/

/-- **Incorrect checks by workers.** A failure is reported exactly if the stage has no result. -/
theorem findIncorrect_by_workers (errors : ErrorTable) :
    (Schedule.visit c.settings.threads c.program.modules.size
      (c.workOn (c.incorrectChecks errors))).failure = none ↔
      ∃ s, c.findIncorrect errors = .ok s := by
  rw [workers_succeed_iff (Schedule.settled_visit _ _ _), findIncorrect, foldAnalysed_eq_foldlM,
    foldlM_eq_mapM]
  constructor
  · rintro ⟨es, hes⟩
    exact ⟨_, bind_eq_ok_iff.mpr ⟨es, hes, rfl⟩⟩
  · rintro ⟨s, hs⟩
    obtain ⟨es, hes, -⟩ := bind_eq_ok_iff.mp hs
    exact ⟨es, hes⟩

end Context

end ErrorReturns
