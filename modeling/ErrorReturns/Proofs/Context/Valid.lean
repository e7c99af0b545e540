import ErrorReturns.Proofs.CallGraph
import ErrorReturns.Proofs.Condition
import ErrorReturns.Proofs.Program.WellFormed
import ErrorReturns.Proofs.Table.Keys

/-!
# Contexts of valid functions

A function is put under analysis if it has no defect, together with the conditions that are found in
it. These come from its own instructions: from the switch that ends a block, or from a comparison
that some instruction of the function uses as a flag. A context in which this is so for every
function under analysis is `Context.Valid`, whatever the rest of the program is like, and every
analysis prepares such a context (`Context.valid_of_prepare`).
-/

namespace ErrorReturns

open Checked

/-- **The conditions of a function without a defect** come from its own instructions. -/
theorem Program.functionOf_origin {p : Program} {ds : List Directive}
    (hbuild : Program.build ds = .ok p) {f : FuncId} (hdefect : p.defect? f = .ok none)
    {mayAlias : AliasOracle} {found : List Condition} (h : p.conditionsOf mayAlias f = .ok found) :
    ∀ cond ∈ found, p.functionOf cond.origin = .ok f := by
  have howned := Arena.owned_of_edits (edits_of_build hbuild).1
  intro cond hcond
  obtain ⟨function, b, hf, hb, hsource⟩ := exists_source_of_mem_conditionsOf h hcond
  obtain ⟨block, hblock, i, hi, horigin⟩ := hsource.exists_mem_insts
  rcases horigin with rfl | ⟨op, hop, hused⟩
  · exact functionOf_eq_ok_iff.mpr
      ⟨b, (mem_insts_iff howned hblock).mp hi, (mem_blocks_iff howned hf).mp hb⟩
  · exact functionOf_of_instDefect? (instDefect?_of_defect? hdefect hf hb hblock hi) hop hused

/-! ## Contexts -/

namespace Context

/-- **A context of valid functions**: those under analysis have no defect, and each comes with
conditions of its own. -/
structure Valid (c : Context) : Prop where
  defect : ∀ f, c.isAnalysed f = true → c.program.defect? f = .ok none
  origin : ∀ f, ∀ cond ∈ c.conditionsOf f, c.program.functionOf cond.origin = .ok f

variable {c : Context}

theorem exists_get?_of_mem_conditionsOf {f : FuncId} {cond : Condition}
    (h : cond ∈ c.conditionsOf f) : ∃ found, c.conditions.get? f = some found ∧ cond ∈ found := by
  unfold conditionsOf at h
  cases hfound : c.conditions.get? f with
  | none => simp [hfound] at h
  | some found => exact ⟨found, rfl, by simpa [hfound] using h⟩

/-- A condition of a valid context is one of a function without a defect. -/
theorem Valid.defect_of_mem (hc : c.Valid) {f : FuncId} {cond : Condition}
    (h : cond ∈ c.conditionsOf f) : c.program.defect? f = .ok none := by
  obtain ⟨found, hfound, -⟩ := exists_get?_of_mem_conditionsOf h
  exact hc.defect f (Option.isSome_of_eq_some hfound)

end Context

/-- What is under analysis has no defect, and its conditions are those found in it. -/
theorem Analysis.of_get?_conditions {a : Analysis} {c : Context}
    {rejected : List (FuncId × Defect)} (h : a.prepare = .ok (c, rejected)) :
    ∀ f found, c.conditions.get? f = some found →
      a.program.defect? f = .ok none ∧ a.program.conditionsOf a.mayAlias f = .ok found := by
  refine foldlM_induction (P := fun acc : Context × List (FuncId × Defect) =>
    ∀ f found, acc.1.conditions.get? f = some found →
      a.program.defect? f = .ok none ∧ a.program.conditionsOf a.mayAlias f = .ok found)
    (fun acc hacc f _ acc' h => ?_) (fun _ _ hget => by cases hget) h
  obtain ⟨function, -, h⟩ := bind_eq_ok_iff.mp h
  split at h
  · exact Except.ok.inj h ▸ hacc
  · obtain ⟨defect?, hdefect, h⟩ := bind_eq_ok_iff.mp h
    cases defect? with
    | some defect => exact Except.ok.inj h ▸ hacc
    | none =>
      simp only [bind_eq_ok_iff, pure_eq_ok, Except.ok.injEq] at h
      obtain ⟨found, hfound, rfl⟩ := h
      intro g found' hg
      rcases Table.of_get?_insert hg with ⟨rfl, rfl⟩ | hg
      · exact ⟨hdefect, hfound⟩
      · exact hacc g found' hg

/-- The conditions under analysis have their sources in the program. -/
theorem Analysis.exists_source_of_mem_conditionsOf {a : Analysis} {c : Context}
    {rejected : List (FuncId × Defect)} (h : a.prepare = .ok (c, rejected)) {f : FuncId}
    {cond : Condition} (hcond : cond ∈ c.conditionsOf f) :
    ∃ b, CheckFinder.Source ⟨c.program, a.mayAlias, b⟩ cond := by
  have hfound := Analysis.of_get?_conditions h
  obtain ⟨conditions, rfl⟩ := Analysis.exists_conditions_of_prepare h
  obtain ⟨found, hget, hmem⟩ := Context.exists_get?_of_mem_conditionsOf hcond
  obtain ⟨-, b, -, -, hsource⟩ :=
    Program.exists_source_of_mem_conditionsOf (hfound f found hget).2 hmem
  exact ⟨b, hsource⟩

/-- **Every analysis of a program prepares a valid context.** -/
theorem Context.valid_of_prepare {a : Analysis} {ds : List Directive}
    (hbuild : Program.build ds = .ok a.program) {c : Context} {rejected : List (FuncId × Defect)}
    (h : a.prepare = .ok (c, rejected)) : c.Valid := by
  have hfound := Analysis.of_get?_conditions h
  obtain ⟨conditions, rfl⟩ := Analysis.exists_conditions_of_prepare h
  refine ⟨fun f hf => ?_, fun f cond hcond => ?_⟩
  · obtain ⟨found, hget⟩ := Option.isSome_iff_exists.mp hf
    exact (hfound f found hget).1
  · obtain ⟨found, hget, hmem⟩ := exists_get?_of_mem_conditionsOf hcond
    obtain ⟨hdefect, hconditions⟩ := hfound f found hget
    exact Program.functionOf_origin hbuild hdefect hconditions cond hmem

theorem Context.valid_of_ofDirectives {directives : List Directive} {c : Context}
    (h : ofDirectives directives = .ok c) : c.Valid := by
  obtain ⟨p, g, rejected, hp, -, hprepare⟩ := exists_prepare_of_ofDirectives h
  exact valid_of_prepare (a := ⟨p, g, .basic, {}⟩) hp hprepare

end ErrorReturns
