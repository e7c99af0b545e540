import ErrorReturns.Proofs.Learning.Handlers

/-!
# Decided conditions name their sides

Learning decides a condition by naming the first block of its error side. This block is taken from
the second place of a path, or picked among successors by the handlers that are called from there.
Either way it is a side of the condition (`Condition.HasSide`): a path leaves the block of its
condition over one of the edges of this block, and a path that begins with a case of a switch does
so too, since in a valid function a switch ends its block. Better matches replace worse ones without
changing this (`Context.compareAll_induction`).
-/

namespace ErrorReturns

open Checked (bind_eq_ok_iff)

/-- **A side of a condition**: a block that follows the one in which the condition is. -/
def Condition.HasSide (p : Program) (cond : Condition) (s : BlockId) : Prop :=
  ∃ b, cond.block p = .ok b ∧ s ∈ p.successors b

/-- **A real decision** about a function: the condition is a comparison of the function, and one of
its sides is named. -/
structure Context.NamesSide (c : Context) (f : FuncId) (id : CheckId) (m : Match) : Prop where
  function : id.function = f
  side : ∃ cond s, c.condition? id = some cond ∧ cond.isComparison = true ∧
    m.errorBlock = some s ∧ cond.HasSide c.program s

namespace Context

variable {c : Context} {f : FuncId}

/-! ## Similar paths -/

section Valid

variable {ds : List Directive} (hbuild : Program.build ds = .ok c.program) (hc : c.Valid)
include hbuild hc

/-- A path that goes beyond the block of its condition leaves the condition by one of its sides. -/
theorem hasSide_of_mem_pathsOfCondition {boundary : List BlockId} {id : CheckId} {cond : Condition}
    (hcond : cond ∈ c.conditionsOf f) {paths : List Path}
    (h : c.pathsOfCondition boundary id cond = .ok paths) {q : Path} (hq : q ∈ paths)
    (hlong : 1 < q.blocks.length) :
    ∃ s, q.blocks[1]? = some s ∧ cond.HasSide c.program s := by
  simp only [pathsOfCondition, bind_eq_ok_iff] at h
  obtain ⟨block, hblock, op, hop, h⟩ := h
  -- a path from a target of the switch has this target next
  have hswitch : ∀ {target}, op.isTerminator = true → target ∈ op.successors →
      c.program.pathsFrom boundary target ⟨[block], some id⟩ = .ok paths →
      ∃ s, q.blocks[1]? = some s ∧ cond.HasSide c.program s := by
    intro target hterm htarget h
    obtain ⟨rest, rfl, -⟩ := Program.extends_of_mem_pathsFrom h hq
    exact ⟨target, rfl, block, hblock, Program.mem_successors_of_isTerminator hbuild
      (hc.defect_of_mem hcond) (hc.origin f cond hcond) hop hterm hblock htarget⟩
  split at h
  · split at h
    · split at h
      case h_1 k target hfind =>
        refine hswitch rfl ?_ h
        exact List.mem_cons_of_mem _ (List.mem_map.mpr ⟨_, List.mem_of_find?_eq_some hfind, rfl⟩)
      case h_2 =>
        obtain rfl := Except.ok.inj h
        cases hq
    · obtain rfl := Except.ok.inj h
      cases hq
  · exact hswitch rfl List.mem_cons_self h
  · obtain ⟨rest, rfl, hnext⟩ := Program.extends_of_mem_pathsFrom h hq
    cases rest with
    | nil => simp [Path.append] at hlong
    | cons s rest => exact ⟨s, rfl, block, hblock, hnext s rfl⟩
  · obtain rfl := Except.ok.inj h
    cases hq

/-- An offered path decides its condition by the side by which it leaves. -/
theorem namesSide_offer {checks : List (CheckId × Condition)}
    (hchecks : ∀ check ∈ checks, check ∈ c.identifiedConditions f) {paths : List SummarizedPath}
    (h : c.summarizedPaths checks = .ok paths) {s : SummarizedPath} (hs : s ∈ paths)
    (common sum : Nat) {d : Decisions}
    (hd : ∀ id m, d.matched.get? id = some m → c.NamesSide f id m) :
    ∀ id m, (c.offer common sum d s).matched.get? id = some m → c.NamesSide f id m := by
  rcases offer_cases (c := c) common sum d s with heq | ⟨id, cond, m, hid, hcond, hcmp, hm, heq⟩
  · rw [heq]
    exact hd
  · rw [heq]
    intro id' m' hget
    rcases Table.of_get?_insert hget with ⟨rfl, rfl⟩ | hget
    · obtain ⟨check, hcheck, boundary, found, hfound, hpath, hlong, hentry⟩ :=
        exists_of_mem_summarizedPaths h hs
      -- the path leaves the condition that it is offered for
      rw [reason_of_mem_pathsOfCondition hfound hpath] at hid
      obtain rfl := Option.some.inj hid
      have hmem := hchecks check hcheck
      rw [condition?_of_mem_identifiedConditions hmem] at hcond
      obtain rfl := Option.some.inj hcond
      obtain ⟨side, hside, hhas⟩ := hasSide_of_mem_pathsOfCondition hbuild hc
        (mem_conditionsOf_of_mem_identifiedConditions hmem) hfound hpath hlong
      exact ⟨function_of_mem_identifiedConditions hmem, check.2, side,
        condition?_of_mem_identifiedConditions hmem, hcmp, hm.trans (hentry.trans hside), hhas⟩
    · exact hd id' m' hget

/-- What decides a condition by similar paths names one of its sides. -/
theorem namesSide_of_similarityEvidence {e : Evidence} (h : c.similarityEvidence f = .ok e) :
    ∀ id m, e.matched.get? id = some m → c.NamesSide f id m := by
  unfold similarityEvidence at h
  dsimp only at h
  split at h
  · obtain rfl := Except.ok.inj h
    exact fun _ _ hget => by cases hget
  · simp only [bind_eq_ok_iff, Checked.pure_eq_ok, Except.ok.injEq] at h
    obtain ⟨paths, hpaths, d, hd, tallies, -, observed, -, rfl⟩ := h
    exact compareAll_induction
      (P := fun d => ∀ id m, d.matched.get? id = some m → c.NamesSide f id m)
      (fun s hs common sum _ => namesSide_offer hbuild hc
        (fun check hcheck => List.mem_of_mem_filter hcheck) hpaths hs common sum)
      (fun _ _ hget => by cases hget) hd

end Valid

/-! ## Handlers -/

theorem namesSide_of_handlerEvidence {handlers : SortedSet FuncId} {decided : List CheckId}
    {e : Evidence} (h : c.handlerEvidence f handlers decided = .ok e) :
    ∀ id m, e.matched.get? id = some m → c.NamesSide f id m := by
  intro id m hget
  obtain ⟨cond, hmem, hcmp, -, hmatch⟩ := exists_matchByHandlers?_of_handlerEvidence h hget
  obtain ⟨b, s, hb, hs, hmost⟩ := handlesMost_of_matchByHandlers? hmatch
  exact ⟨function_of_mem_identifiedConditions hmem, cond, s,
    condition?_of_mem_identifiedConditions hmem, hcmp, hs, b, hb, hmost.1⟩

/-! ## Every decision -/

/-- **Decided conditions name their sides.** In a context of valid functions, whatever similar paths
or any handlers decide about a function is a comparison of the function, and what is named as its
error side is a block that follows the one in which the comparison is. -/
theorem decided_conditions_name_sides {ds : List Directive}
    (hbuild : Program.build ds = .ok c.program) (hc : c.Valid) (f : FuncId) :
    (∀ e, c.similarityEvidence f = .ok e → ∀ x ∈ e.matched.entries, c.NamesSide f x.1 x.2) ∧
      ∀ handlers decided e, c.handlerEvidence f handlers decided = .ok e →
        ∀ x ∈ e.matched.entries, c.NamesSide f x.1 x.2 := by
  refine ⟨fun e h x hx => ?_, fun handlers decided e h x hx => ?_⟩
  · exact namesSide_of_similarityEvidence hbuild hc h x.1 x.2 (Table.get?_eq_some_iff.mpr hx)
  · exact namesSide_of_handlerEvidence h x.1 x.2 (Table.get?_eq_some_iff.mpr hx)

/-- `user` checks `source` by a branch and then by a switch, and logs both errors. -/
def loggedTwice : List Directive :=
  [.module "m", .declare ⟨0⟩ "source" [] (.int 32), .declare ⟨0⟩ "log" [] .void,
    .declare ⟨0⟩ "user" [] .void,
    .define ⟨2⟩ [.block, .block, .block, .block, .block,
      .moveTo ⟨0⟩, .call ⟨0⟩ [], .cmp .slt (.inst ⟨0⟩) (.int 0 32), .branch (.inst ⟨1⟩) ⟨1⟩ ⟨2⟩,
      .moveTo ⟨1⟩, .call ⟨1⟩ [], .ret none,
      .moveTo ⟨2⟩, .call ⟨0⟩ [], .switch (.inst ⟨5⟩) ⟨4⟩ [(-1, ⟨3⟩)],
      .moveTo ⟨3⟩, .call ⟨1⟩ [], .ret none,
      .moveTo ⟨4⟩, .ret none]]

/-- Similar paths and the handler `log` decide both comparisons, by the side that logs. -/
theorem loggedTwice_conditions_name_sides : ∃ c e e',
    ofDirectives loggedTwice = .ok c ∧ c.similarityEvidence ⟨2⟩ = .ok e ∧
    c.handlerEvidence ⟨2⟩ (.ofList [⟨1⟩]) [] = .ok e' ∧
    e.matched.entries.map (fun x => (x.1.index, x.2.errorBlock)) =
      [(0, some ⟨1⟩), (1, some ⟨3⟩)] ∧
    e'.matched.entries.map (fun x => (x.1.index, x.2.errorBlock)) =
      [(0, some ⟨1⟩), (1, some ⟨3⟩)] ∧
    (∀ x ∈ e.matched.entries, c.NamesSide ⟨2⟩ x.1 x.2) ∧
    ∀ x ∈ e'.matched.entries, c.NamesSide ⟨2⟩ x.1 x.2 := by
  obtain ⟨c, hcontext, e, he, e', he', hmatched, hmatched'⟩ :
      ∃ c, ofDirectives loggedTwice = .ok c ∧ ∃ e, c.similarityEvidence ⟨2⟩ = .ok e ∧
      ∃ e', c.handlerEvidence ⟨2⟩ (.ofList [⟨1⟩]) [] = .ok e' ∧
      e.matched.entries.map (fun x => (x.1.index, x.2.errorBlock)) =
        [(0, some ⟨1⟩), (1, some ⟨3⟩)] ∧
      e'.matched.entries.map (fun x => (x.1.index, x.2.errorBlock)) =
        [(0, some ⟨1⟩), (1, some ⟨3⟩)] := by
    decide +kernel
  obtain ⟨hsimilar, hhandlers⟩ := decided_conditions_name_sides (build_of_ofDirectives hcontext)
    (valid_of_ofDirectives hcontext) ⟨2⟩
  exact ⟨c, e, e', hcontext, he, he', hmatched, hmatched', hsimilar e he,
    hhandlers _ _ e' he'⟩

end Context

end ErrorReturns
