import ErrorReturns.Proofs.Context.Valid
import ErrorReturns.Proofs.Flow.Isolation
import ErrorReturns.Proofs.Learning.Inside
import Mathlib.Data.Set.List

/-!
# What propagation adds

Error values are propagated to callers in two ways. Functions that check a failing call get the
constants that they return on error paths; they get them only if they have no entry, so that the
table only grows (`ErrorTable.Grows`) and every function that gains values is counted once.
Functions that call handlers get the constants that they return after that, in addition to what they
have, so that the table widens (`ErrorTable.Widens`). Both change entries of functions that can
learn and no others (`propagation_only_adds`).

An error path is a path that the enumeration of paths lists on the true side of a branch, if an
error value of the checked call satisfies the comparison (`Context.ErrorPath`). What is found in the
checks of a function are the constants that are returned along its error paths, no more and no less
(`Context.exists_constants_of_learnFromChecks`).
-/

namespace ErrorReturns

open Checked (bind_eq_ok_iff ok_bind)

namespace ErrorTable

variable {t t' t'' : ErrorTable} {k : ReturnSlot} {s : RangeSet}

/-! ## Tables that grow and tables that widen -/

/-- **A table grows** if its entries stay. -/
def Grows (t t' : ErrorTable) : Prop := ∀ k s, t.get? k = some s → t'.get? k = some s

theorem Grows.refl (t : ErrorTable) : t.Grows t := fun _ _ h => h

theorem Grows.trans (h : t.Grows t') (h' : t'.Grows t'') : t.Grows t'' :=
  fun k s hs => h' k s (h k s hs)

theorem Grows.contains (h : t.Grows t') (hk : t.contains k = true) : t'.contains k = true := by
  obtain ⟨s, hs⟩ := Option.isSome_iff_exists.mp hk
  exact Option.isSome_of_eq_some (h k s hs)

/-- **A table widens** if its entries lose no value. -/
def Widens (t t' : ErrorTable) : Prop :=
  ∀ k s, t.get? k = some s → ∃ s', t'.get? k = some s' ∧ ∀ v ∈ s, v ∈ s'

theorem Widens.refl (t : ErrorTable) : t.Widens t := fun _ s h => ⟨s, h, fun _ hv => hv⟩

theorem Widens.trans (h : t.Widens t') (h' : t'.Widens t'') : t.Widens t'' := by
  intro k s hs
  obtain ⟨s', hs', hsub⟩ := h k s hs
  obtain ⟨s'', hs'', hsub'⟩ := h' k s' hs'
  exact ⟨s'', hs'', fun v hv => hsub' v (hsub v hv)⟩

/-- Adding a single entry updates its slot. -/
theorem mergeUnion_insert (t : ErrorTable) (k : ReturnSlot) (s : RangeSet) :
    t.mergeUnion (Table.empty.insert k s) = t.update k fun old => (old.map (· ∪ s)).getD s :=
  rfl

theorem get?_mergeUnion_insert (h : t.contains k = false) :
    (t.mergeUnion (Table.empty.insert k s)).get? k = some s := by
  rw [mergeUnion_insert]
  have hnone : t.get? k = none := Option.not_isSome_iff_eq_none.mp (Bool.eq_false_iff.mp h)
  rw [Table.get?_update_self, hnone]
  rfl

/-- A table grows by an entry for a slot that has none. -/
theorem grows_mergeUnion_insert (h : t.contains k = false) :
    t.Grows (t.mergeUnion (Table.empty.insert k s)) := by
  intro k' s' hs'
  have hne : k' ≠ k := by
    rintro rfl
    rw [Table.contains, hs'] at h
    cases h
  rw [mergeUnion_insert, Table.get?_update_of_ne hne]
  exact hs'

/-- A table widens by any entry. -/
theorem widens_mergeUnion_insert (t : ErrorTable) (k : ReturnSlot) (s : RangeSet) :
    t.Widens (t.mergeUnion (Table.empty.insert k s)) := by
  intro k' s' hs'
  rw [mergeUnion_insert, Table.get?_update]
  split
  case isTrue heq =>
    subst heq
    rw [hs']
    exact ⟨s' ∪ s, rfl, fun _ hv => RangeSet.mem_union.mpr (Or.inl hv)⟩
  case isFalse => exact ⟨s', hs', fun _ hv => hv⟩

end ErrorTable

/-! ## Functions that can learn -/

namespace Program

variable {p : Program} {f : FuncId}

variable (p) in
/-- **A function that always returns one constant**: it returns, and every return of it yields the
integer constant or null. -/
def AlwaysReturns (f : FuncId) (v : Value) : Prop :=
  ((∃ k, v = .const k) ∨ v = .null) ∧
    ∃ is, p.returnsIn f = .ok is ∧ is ≠ [] ∧ ∀ i ∈ is, p.op i = .ok (.ret (some v))

theorem allOneConstant_iff {yields : List (Option Value)} :
    allOneConstant yields = true ↔
      ∃ v, ((∃ k, v = .const k) ∨ v = .null) ∧ yields ≠ [] ∧ ∀ x ∈ yields, x = some v := by
  match yields with
  | [] | none :: _ => simp [allOneConstant]
  | some v :: rest => cases v <;> simp [allOneConstant]

/-- **Constant functions are recognised.** -/
theorem returnsSingleConstant_eq_true_iff :
    p.returnsSingleConstant f = .ok true ↔ ∃ v, p.AlwaysReturns f v := by
  constructor
  · intro h
    simp only [returnsSingleConstant, bind_eq_ok_iff] at h
    obtain ⟨is, his, yields, hyields, h⟩ := h
    obtain ⟨v, hv, hne, hall⟩ := allOneConstant_iff.mp (Except.ok.inj h)
    refine ⟨v, hv, is, his, ?_, fun i hi => ?_⟩
    · rintro rfl
      exact hne (Except.ok.inj hyields).symm
    · obtain ⟨y, hmem, hy⟩ := Checked.exists_mem_of_mapM hyields hi
      obtain rfl := hall y hmem
      obtain ⟨op, hop, hy⟩ := bind_eq_ok_iff.mp hy
      split at hy
      · rw [hop, Except.ok.inj hy]
      · cases hy
  · rintro ⟨v, hv, is, his, hne, hret⟩
    refine bind_eq_ok_iff.mpr ⟨is, his, bind_eq_ok_iff.mpr ⟨is.map fun _ => some v, ?_, ?_⟩⟩
    · rw [Checked.mapM_eq_ok_iff, List.map_map]
      refine List.map_congr_left fun i hi => ?_
      rw [hret i hi, ok_bind]
      rfl
    · exact congrArg Except.ok (allOneConstant_iff.mpr ⟨v, hv, by simpa using hne, by simp⟩)

end Program

namespace Context

variable {c : Context} {errors errors' : ErrorTable} {f : FuncId}

variable (c) in
/-- **The functions that may be given error values of their own**: they are under analysis, return
something, and do not always return one constant. -/
structure MayGain (f : FuncId) : Prop where
  analysed : c.isAnalysed f = true
  returns : ∃ function, c.program.function f = .ok function ∧ function.ret.isVoid = false
  varies : c.program.returnsSingleConstant f = .ok false

/-- **Which functions are given values** is found out as it is defined. -/
theorem canLearn_eq_true_iff : c.canLearn f = .ok true ↔ c.MayGain f := by
  constructor
  · intro h
    obtain ⟨function, hfunction, h⟩ := bind_eq_ok_iff.mp h
    split at h
    · cases h
    case isFalse hopen =>
      rw [Bool.or_eq_true, not_or, Bool.not_eq_true, Bool.not_eq_true, Bool.not_eq_false'] at hopen
      obtain ⟨single, hsingle, h⟩ := bind_eq_ok_iff.mp h
      obtain rfl : single = false := by simpa using Except.ok.inj h
      exact ⟨hopen.2, ⟨function, hfunction, hopen.1⟩, hsingle⟩
  · rintro ⟨hanalysed, ⟨function, hfunction, hret⟩, hsingle⟩
    rw [canLearn, hfunction, ok_bind, hret, hanalysed, hsingle]
    rfl

theorem MayGain.not_alwaysReturns (h : c.MayGain f) (v : Value) :
    ¬ c.program.AlwaysReturns f v := by
  intro hv
  cases h.varies.symm.trans (Program.returnsSingleConstant_eq_true_iff.mpr ⟨v, hv⟩)

/-! ## Constants returned on error paths -/

variable (c) in
/-- **A constant returned along a path**: the path ends in a return, and the returned value comes to
the constant along the path and the chain before it. -/
inductive Returns (path : List BlockId) : InstId → Int → Prop
  | intro {last : BlockId} {ret : InstId} {returned : Option Value} {w : Value} {v : Int}
      (hlast : path.getLast? = some last) (hret : c.program.terminator? last = .ok (some ret))
      (hop : c.program.op ret = .ok (.ret returned))
      (hvalue : c.program.resolveAlong c.mayAlias (c.program.extendBackward path) returned =
        .ok (some w))
      (hword : w.word32? = some v) : Returns path ret v

/-- A path returns a set exactly if it returns a constant, which is then the only value of the set.
-/
theorem returnedAlong?_eq_some_iff {path : List BlockId} {s : RangeSet} :
    c.returnedAlong? path = .ok (some s) ↔ ∃ ret v, c.Returns path ret v ∧ s = .singleton v := by
  constructor
  · intro h
    obtain ⟨ret?, hret, h⟩ := bind_eq_ok_iff.mp h
    cases ret? with
    | none => cases h
    | some ret =>
      unfold Program.finalReturn? at hret
      cases hlast : path.getLast? with
      | none => simp [hlast] at hret
      | some last =>
        rw [hlast] at hret
        obtain ⟨last?, hterminator, hret⟩ := bind_eq_ok_iff.mp hret
        cases last? with
        | none => cases hret
        | some ret' =>
          obtain ⟨op', -, hret⟩ := bind_eq_ok_iff.mp hret
          obtain ⟨-, hsame⟩ := Option.ite_none_right_eq_some.mp (Except.ok.inj hret)
          obtain rfl := Option.some.inj hsame
          obtain ⟨op, hop, h⟩ := bind_eq_ok_iff.mp h
          split at h
          · obtain ⟨resolved, hresolved, h⟩ := bind_eq_ok_iff.mp h
            obtain ⟨v, hv, rfl⟩ := Option.map_eq_some_iff.mp (Except.ok.inj h)
            obtain ⟨w, rfl, hw⟩ := Option.bind_eq_some_iff.mp hv
            exact ⟨ret', v, .intro hlast hterminator hop hresolved hw, rfl⟩
          · cases h
  · rintro ⟨ret, v, ⟨hlast, hret, hop, hvalue, hword⟩, rfl⟩
    have hfinal : c.program.finalReturn? path = .ok (some ret) := by
      rw [Program.finalReturn?, hlast]
      simp only [hret, hop, ok_bind, Operation.isReturn, if_true, Checked.pure_eq_ok]
    rw [returnedAlong?, hfinal, ok_bind]
    simp only [Program.returnedSet?, hop, ok_bind, hvalue, Option.bind_some, hword, Option.map_some,
      Checked.pure_eq_ok]

variable (c) in
/-- **A path on the error side of a check**: the checked call has an error value that satisfies the
comparison, and the path is listed on the true side of the branch, up to the blocks of `boundary`
and the false side. -/
inductive FailurePath (errors : ErrorTable) (boundary : List BlockId) :
    Condition → List BlockId → Prop
  | intro {lhs : CheckedValue} {pred : Predicate} {rhs : Value} {origin call : InstId}
      {fromBranch : Bool} {word : Int} {block ifTrue ifFalse : BlockId} {cond : Value}
      {paths : List Path} {path : Path}
      (hcall : c.program.callOf? lhs.value = .ok (some call)) (hrhs : rhs.word32? = some word)
      (hside : errors.errorBranch? c.graph pred lhs.slot word call = some true)
      (hblock : c.program.blockOf origin = .ok block)
      (hbranch : c.program.terminatorOp? block = .ok (some (.branch cond ifTrue ifFalse)))
      (hpaths : c.program.pathsFrom (ifFalse :: boundary) ifTrue ⟨[block], none⟩ = .ok paths)
      (hpath : path ∈ paths) :
      FailurePath errors boundary (.comparison lhs pred rhs origin fromBranch) path.blocks

variable (c) in
/-- **The error paths of a function**, with respect to what is known of the functions it calls. They
end at the blocks of its conditions. -/
def ErrorPath (errors : ErrorTable) (f : FuncId) (path : List BlockId) : Prop :=
  ∃ boundary, (c.conditionsOf f).mapM (·.block c.program) = .ok boundary ∧
    ∃ cond ∈ c.conditionsOf f, c.FailurePath errors boundary cond path

/-- What is found after a check is what the paths on its error side return, one after another. -/
theorem mem_returnedAfter_iff {boundary : List BlockId} {cond : Condition}
    {found : List (Option RangeSet)} (h : c.returnedAfter errors boundary cond = .ok found)
    {s? : Option RangeSet} :
    s? ∈ found ↔ ∃ path, c.FailurePath errors boundary cond path ∧
      c.returnedAlong? path = .ok s? := by
  constructor
  · intro hs
    -- wherever the search gives up it returns no path at all, against `hs`; the one branch left has
    -- the data of a failure path
    have hnil : (pure [] : Checked (List (Option RangeSet))) ≠ .ok found := by
      intro hnil
      obtain rfl := Except.ok.inj hnil
      cases hs
    cases cond with
    | fallback _ _ => exact absurd h hnil
    | comparison lhs pred rhs origin fromBranch =>
      obtain ⟨call?, hcall, h⟩ := bind_eq_ok_iff.mp h
      cases call? with
      | none => exact absurd h hnil
      | some call =>
        dsimp only at h
        split at h
        case h_2 => exact absurd h hnil
        case h_1 word hrhs =>
          split at h
          case isTrue => exact absurd h hnil
          case isFalse hside =>
            simp only [bind_eq_ok_iff] at h
            obtain ⟨block, hblock, op?, hbranch, h⟩ := h
            split at h
            case h_2 => exact absurd h hnil
            case h_1 =>
              obtain ⟨paths, hpaths, h⟩ := bind_eq_ok_iff.mp h
              obtain ⟨path, hpath, hs⟩ := Checked.exists_of_mem_mapM h hs
              exact ⟨path.blocks, .intro hcall hrhs (Decidable.not_not.mp hside) hblock hbranch
                hpaths hpath, hs⟩
  · rintro ⟨path, ⟨hcall, hrhs, hside, hblock, hbranch, hpaths, hpath⟩, hs⟩
    simp only [returnedAfter, hcall, ok_bind, hrhs, hside, ne_eq, not_true_eq_false, if_false,
      Condition.block, Condition.origin, hblock, hbranch, hpaths] at h
    obtain ⟨s?', hmem, hs'⟩ := Checked.exists_mem_of_mapM h hpath
    exact Except.ok.inj (hs.symm.trans hs') ▸ hmem

/-- Sets with one value each are those of a list of values. -/
theorem exists_map_singleton {sets : List RangeSet} {P : Int → Prop}
    (h : ∀ s, s ∈ sets ↔ ∃ v, P v ∧ s = .singleton v) :
    ∃ constants : List Int, sets = constants.map .singleton ∧ ∀ v, v ∈ constants ↔ P v := by
  have hrange : sets ∈ Set.range (List.map RangeSet.singleton) := by
    rw [Set.range_list_map]
    intro s hs
    obtain ⟨v, -, hv⟩ := (h s).mp hs
    exact ⟨v, hv.symm⟩
  obtain ⟨constants, rfl⟩ := hrange
  have hinj : ∀ {u v : Int}, RangeSet.singleton u = .singleton v → u = v := fun heq =>
    RangeSet.mem_singleton.mp (heq ▸ RangeSet.mem_singleton.mpr rfl)
  refine ⟨constants, rfl, fun v => ?_⟩
  rw [← List.mem_map_of_injective fun _ _ => hinj, h]
  exact ⟨fun ⟨u, hu, heq⟩ => hinj heq ▸ hu, fun hv => ⟨v, hv, rfl⟩⟩

/-- **What is found in the checks of a function** are the constants that are returned on its error
paths. It is looked for in functions that may gain values and have no entry. -/
theorem exists_constants_of_learnFromChecks {s : RangeSet}
    (h : c.learnFromChecks errors f = .ok (some s)) :
    c.MayGain f ∧ errors.contains ⟨f, 0⟩ = false ∧
      ∃ constants : List Int, constants ≠ [] ∧
        s = (constants.map RangeSet.singleton).foldl (· ∪ ·) .empty ∧
        ∀ v, v ∈ constants ↔ ∃ path ret, c.ErrorPath errors f path ∧ c.Returns path ret v := by
  obtain ⟨hcan, hnone, -⟩ := checksCall_of_learnFromChecks h
  refine ⟨canLearn_eq_true_iff.mp hcan, hnone, ?_⟩
  rw [learnFromChecks, hcan, ok_bind, hnone] at h
  obtain ⟨boundary, hboundary, h⟩ := bind_eq_ok_iff.mp h
  obtain ⟨found, hfound, h⟩ := bind_eq_ok_iff.mp h
  -- the sets found are the singletons of the constants returned along error paths, whichever
  -- condition led to each path
  have hsets : ∀ s, s ∈ found.flatten.filterMap id ↔
      ∃ v, (∃ path ret, c.ErrorPath errors f path ∧ c.Returns path ret v) ∧ s = .singleton v := by
    intro s
    rw [List.mem_filterMap]
    constructor
    · rintro ⟨-, hmem, rfl⟩
      obtain ⟨l, hl, hmem⟩ := List.mem_flatten.mp hmem
      obtain ⟨cond, hcond, hl⟩ := Checked.exists_of_mem_mapM hfound hl
      obtain ⟨path, hpath, hs⟩ := (mem_returnedAfter_iff hl).mp hmem
      obtain ⟨ret, v, hret, rfl⟩ := returnedAlong?_eq_some_iff.mp hs
      exact ⟨v, ⟨path, ret, ⟨boundary, hboundary, cond, hcond, hpath⟩, hret⟩, rfl⟩
    · rintro ⟨v, ⟨path, ret, ⟨boundary', hboundary', cond, hcond, hpath⟩, hret⟩, rfl⟩
      obtain rfl := Except.ok.inj (hboundary.symm.trans hboundary')
      obtain ⟨l, hl, heq⟩ := Checked.exists_mem_of_mapM hfound hcond
      have hmem := (mem_returnedAfter_iff heq).mpr
        ⟨path, hpath, returnedAlong?_eq_some_iff.mpr ⟨ret, v, hret, rfl⟩⟩
      exact ⟨_, List.mem_flatten.mpr ⟨l, hl, hmem⟩, rfl⟩
  obtain ⟨constants, heq, hconstants⟩ := exists_map_singleton hsets
  replace h : unionFound found.flatten = some s := Except.ok.inj h
  unfold unionFound at h
  rw [heq] at h
  split at h
  case h_1 => cases h
  case h_2 hne =>
    refine ⟨constants, ?_, (Option.some.inj h).symm, hconstants⟩
    rintro rfl
    exact hne rfl

/-! ## Returns on error paths are the function's own -/

section Own

variable {ds : List Directive} (hbuild : Program.build ds = .ok c.program) (hc : c.Valid)
include hbuild hc

/-- **Error paths stay in their function.** -/
theorem ErrorPath.inFunction {path : List BlockId} (h : c.ErrorPath errors f path) :
    ∀ b ∈ path, c.program.InFunction f b := by
  obtain ⟨boundary, -, cond, hcond, hpath⟩ := h
  have hdefect := hc.defect_of_mem hcond
  have horigin := hc.origin f cond hcond
  obtain ⟨-, -, -, hblock, hbranch, hpaths, hpath⟩ := hpath
  rename_i block ifTrue ifFalse _ paths path
  have hfirst : c.program.InFunction f block := by
    obtain ⟨b, hb, hown⟩ := Program.functionOf_eq_ok_iff.mp horigin
    exact Except.ok.inj (hb.symm.trans hblock) ▸ hown
  -- the path enters through the true side of the branch; from a block of a function without defect
  -- no edge leads out of it
  have htrue : c.program.InFunction f ifTrue := by
    refine Program.inFunction_of_mem_successors hbuild hdefect hfirst ?_
    obtain ⟨x, hx, hown⟩ := hfirst
    obtain ⟨body, last, op, hinsts, hop, hterm, -, hsuccessors, -⟩ :=
      Program.exists_terminator_of_defect? hbuild hdefect hx hown
    have hlast := Program.terminator?_of_isTerminator hbuild hdefect hx hown
      (hinsts ▸ List.mem_append_right body List.mem_cons_self) hop hterm
    obtain rfl := Option.some.inj (Except.ok.inj
      ((Program.terminatorOp?_of_terminator? hlast hop).symm.trans hbranch))
    rw [hsuccessors]
    exact List.mem_cons_self
  obtain ⟨paths', hpaths', hall⟩ := Program.exists_pathsFrom_inFunction hbuild hdefect htrue
    (ifFalse :: boundary) ⟨[block], none⟩
  obtain rfl := Except.ok.inj (hpaths.symm.trans hpaths')
  obtain ⟨rest, rfl, hrest⟩ := hall path hpath
  exact List.forall_mem_cons.mpr ⟨hfirst, hrest⟩

omit hc in
/-- A path in a function returns from this function. -/
theorem Returns.functionOf {path : List BlockId} {ret : InstId} {v : Int}
    (hpath : ∀ b ∈ path, c.program.InFunction f b) (h : c.Returns path ret v) :
    c.program.functionOf ret = .ok f := by
  obtain ⟨hlast, hret, -⟩ := h
  obtain ⟨block, hblock, hown⟩ := hpath _ (List.mem_of_getLast? hlast)
  have hin := Program.mem_insts_of_terminator? hblock hret
  have howned := Arena.owned_of_edits (Program.edits_of_build hbuild).1
  exact Program.functionOf_eq_ok_iff.mpr
    ⟨_, (Program.mem_insts_iff howned hblock).mp hin, block, hblock, hown⟩

end Own

/-! ## Runs of visits -/

section Runs

variable {learn : ErrorTable → FuncId → Checked (Option RangeSet)} {stack seen : List FuncId}
  {vs : List Visit}

/-- What a visit finds is learned from what was known then. -/
theorem Visits.learn_eq (h : c.Visits learn stack seen errors vs errors') {v : Visit}
    (hv : v ∈ vs) : learn v.errors v.function = .ok v.found := by
  induction h with
  | done => cases hv
  | again _ _ ih => exact ih hv
  | quiet hlearn _ ih =>
    rcases List.mem_cons.mp hv with rfl | hv
    · exact hlearn
    · exact ih hv
  | gain hlearn _ _ ih =>
    rcases List.mem_cons.mp hv with rfl | hv
    · exact hlearn
    · exact ih hv

/-- **Where values have changed, something was found.** -/
theorem Visits.exists_found_of_get?_ne (h : c.Visits learn stack seen errors vs errors')
    {k : ReturnSlot} (hk : errors'.get? k ≠ errors.get? k) :
    ∃ v ∈ vs, v.found.isSome = true ∧ k = ⟨v.function, 0⟩ := by
  by_contra hnever
  refine hk (h.get?_of_not_found fun v hv hfound heq => ?_)
  exact hnever ⟨v, hv, hfound, heq⟩

/-- A run of visits widens what is known. -/
theorem Visits.widens (h : c.Visits learn stack seen errors vs errors') :
    errors.Widens errors' := by
  induction h with
  | done => exact .refl _
  | again _ _ ih => exact ih
  | quiet _ _ ih => exact ih
  | gain _ _ _ ih =>
    exact (ErrorTable.widens_mergeUnion_insert _ _ _).trans ih

/-- The functions about which something is found. -/
def gainers (vs : List Visit) : List FuncId := (vs.filter (·.found.isSome)).map (·.function)

theorem mem_gainers_iff :
    f ∈ gainers vs ↔ ∃ v ∈ vs, v.found.isSome = true ∧ v.function = f := by
  simp only [gainers, List.mem_map, List.mem_filter, and_assoc]

theorem length_gainers (vs : List Visit) : (gainers vs).length = gains vs := by
  rw [gainers, gains, List.length_map, List.countP_eq_length_filter]

/-- The slots with an entry are those that had one and those of the functions that gained values. -/
theorem Visits.contains_iff (h : c.Visits learn stack seen errors vs errors') {k : ReturnSlot} :
    errors'.contains k = true ↔ errors.contains k = true ∨ ∃ f ∈ gainers vs, k = ⟨f, 0⟩ := by
  constructor
  · intro hk
    by_cases hsame : errors'.get? k = errors.get? k
    · rw [Table.contains, hsame] at hk
      exact Or.inl hk
    · obtain ⟨v, hv, hfound, rfl⟩ := h.exists_found_of_get?_ne hsame
      exact Or.inr ⟨v.function, mem_gainers_iff.mpr ⟨v, hv, hfound, rfl⟩, rfl⟩
  · rintro (hk | ⟨f, hf, rfl⟩)
    · exact h.contains_of_contains hk
    · obtain ⟨v, hv, hfound, rfl⟩ := mem_gainers_iff.mp hf
      exact h.contains_of_found hv hfound

/-! If something is found only about functions without an entry, a run replaces nothing and finds
something about a function at most once. -/

variable (hnew : ∀ {errors : ErrorTable} {f : FuncId} {s : RangeSet},
  learn errors f = .ok (some s) → errors.contains ⟨f, 0⟩ = false)
include hnew

theorem Visits.grows (h : c.Visits learn stack seen errors vs errors') : errors.Grows errors' := by
  induction h with
  | done => exact .refl _
  | again _ _ ih => exact ih
  | quiet _ _ ih => exact ih
  | gain hlearn _ _ ih => exact (ErrorTable.grows_mergeUnion_insert (hnew hlearn)).trans ih

/-- **A visit stands between the beginning and the end of its run**, and what it finds stays. -/
theorem Visits.get?_of_found (h : c.Visits learn stack seen errors vs errors') {v : Visit}
    (hv : v ∈ vs) {s : RangeSet} (hs : v.found = some s) :
    errors.Grows v.errors ∧ v.errors.Grows errors' ∧ errors'.get? ⟨v.function, 0⟩ = some s := by
  induction h with
  | done => cases hv
  | again _ _ ih => exact ih hv
  | quiet _ _ ih =>
    rcases List.mem_cons.mp hv with rfl | hv
    · cases hs
    · exact ih hv
  | gain hlearn _ hrest ih =>
    rcases List.mem_cons.mp hv with rfl | hv
    · obtain rfl := Option.some.inj hs
      have hend := hrest.grows hnew
      exact ⟨.refl _, (ErrorTable.grows_mergeUnion_insert (hnew hlearn)).trans hend,
        hend _ _ (ErrorTable.get?_mergeUnion_insert (hnew hlearn))⟩
    · obtain ⟨hbefore, hafter⟩ := ih hv
      exact ⟨(ErrorTable.grows_mergeUnion_insert (hnew hlearn)).trans hbefore, hafter⟩

/-- Every function gains values at most once. -/
theorem Visits.nodup_gainers (h : c.Visits learn stack seen errors vs errors') :
    (gainers vs).Nodup := by
  induction h with
  | done => exact List.nodup_nil
  | again _ _ ih => exact ih
  | quiet _ _ ih => exact ih
  | gain hlearn _ hrest ih =>
    refine List.nodup_cons.mpr ⟨fun hmem => ?_, ih⟩
    -- a second visit that finds something would come upon the entry that the first one left
    obtain ⟨v, hv, hfound, hsame⟩ := mem_gainers_iff.mp hmem
    obtain ⟨s', hs'⟩ := Option.isSome_iff_exists.mp hfound
    obtain ⟨hgrows, -, -⟩ := hrest.get?_of_found hnew hv hs'
    have hentry := hgrows _ _ (ErrorTable.get?_mergeUnion_insert (hnew hlearn))
    have hnone := hnew (hs' ▸ hrest.learn_eq hv)
    rw [hsame, Table.contains, hentry] at hnone
    cases hnone

end Runs

/-! ## Both propagations -/

variable (c) in
/-- **What the propagation along checks adds** to a table: entries for functions that had none,
which are counted. The values of each are the constants that the function returns on its error
paths, with respect to what was known when it was visited. -/
structure Adds (errors : ErrorTable) (out : Propagated) (added : List FuncId) : Prop where
  nodup : added.Nodup
  counted : out.gained = added.length
  keeps : errors.Grows out.errors
  keys : ∀ k, out.errors.contains k = true ↔
    errors.contains k = true ∨ ∃ f ∈ added, k = ⟨f, 0⟩
  allowed : ∀ f ∈ added, c.MayGain f ∧ errors.contains ⟨f, 0⟩ = false
  returned : ∀ f ∈ added, ∃ known constants, errors.Grows known ∧ known.Grows out.errors ∧
    constants ≠ [] ∧
    out.errors.get? ⟨f, 0⟩ = some ((constants.map RangeSet.singleton).foldl (· ∪ ·) .empty) ∧
    ∀ v, v ∈ constants ↔ ∃ path ret, c.ErrorPath known f path ∧ c.program.functionOf ret = .ok f ∧
      c.Returns path ret v

theorem new_of_learnFromChecks {s : RangeSet} (h : c.learnFromChecks errors f = .ok (some s)) :
    errors.contains ⟨f, 0⟩ = false :=
  (checksCall_of_learnFromChecks h).2.1

theorem mayGain_of_learnFromHandlers {handlers : SortedSet FuncId} {s : RangeSet}
    (h : c.learnFromHandlers handlers errors f = .ok (some s)) : c.MayGain f := by
  obtain ⟨can, hcan, h⟩ := bind_eq_ok_iff.mp h
  cases can with
  | false => cases h
  | true => exact canLearn_eq_true_iff.mp hcan

/-- **Propagation along checks** adds entries and changes none. -/
theorem exists_adds_of_visitCheckers {ds : List Directive}
    (hbuild : Program.build ds = .ok c.program) (hc : c.Valid) {out : Propagated}
    (h : c.visitCheckers errors = .ok out) : ∃ added, c.Adds errors out added := by
  obtain ⟨callers, vs, -, hvs, hgained⟩ := exists_visits_of_visitCallers h
  -- at the visit where `f` gains its entry the table lies between the first and the last one
  have hfound : ∀ f ∈ gainers vs, ∃ known s, c.learnFromChecks known f = .ok (some s) ∧
      errors.Grows known ∧ known.Grows out.errors ∧ out.errors.get? ⟨f, 0⟩ = some s := by
    intro f hf
    obtain ⟨v, hv, hsome, rfl⟩ := mem_gainers_iff.mp hf
    obtain ⟨s, hs⟩ := Option.isSome_iff_exists.mp hsome
    exact ⟨v.errors, s, hs ▸ hvs.learn_eq hv, hvs.get?_of_found new_of_learnFromChecks hv hs⟩
  refine ⟨gainers vs, hvs.nodup_gainers new_of_learnFromChecks,
    hgained.trans (length_gainers vs).symm, hvs.grows new_of_learnFromChecks,
    fun k => hvs.contains_iff, fun f hf => ?_, fun f hf => ?_⟩
  · obtain ⟨known, s, hlearn, hgrows, -⟩ := hfound f hf
    obtain ⟨hmay, hnone, -⟩ := exists_constants_of_learnFromChecks hlearn
    refine ⟨hmay, Bool.eq_false_iff.mpr fun hcontains => ?_⟩
    rw [hgrows.contains hcontains] at hnone
    cases hnone
  · obtain ⟨known, s, hlearn, hbefore, hafter, hs⟩ := hfound f hf
    obtain ⟨-, -, constants, hne, rfl, hconstants⟩ := exists_constants_of_learnFromChecks hlearn
    refine ⟨known, constants, hbefore, hafter, hne, hs, fun v => (hconstants v).trans ?_⟩
    refine exists₂_congr fun path ret => and_congr_right fun hpath => ?_
    exact (and_iff_right_of_imp fun hret =>
      hret.functionOf hbuild (hpath.inFunction hbuild hc)).symm

/-- **Propagation after handlers** adds values to the entries of functions that may gain some. -/
theorem widens_of_visitHandlerCallers {handlers : SortedSet FuncId} {out : Propagated}
    (h : c.visitHandlerCallers handlers errors = .ok out) :
    errors.Widens out.errors ∧ ∀ k, out.errors.get? k ≠ errors.get? k →
      k.slot = 0 ∧ c.MayGain k.function := by
  obtain ⟨callers, vs, -, hvs, -⟩ := exists_visits_of_visitCallers h
  refine ⟨hvs.widens, fun k hk => ?_⟩
  obtain ⟨v, hv, hsome, rfl⟩ := hvs.exists_found_of_get?_ne hk
  obtain ⟨s, hs⟩ := Option.isSome_iff_exists.mp hsome
  exact ⟨rfl, mayGain_of_learnFromHandlers (hs ▸ hvs.learn_eq hv)⟩

/-- **Visits of callers come to an end**, if what is looked for can be looked for. -/
theorem Sound.visitCallers_ok_or_unending (hc : c.Sound) (herrors : errors.Within c.program)
    {learn : ErrorTable → FuncId → Checked (Option RangeSet)}
    (hlearn : ∀ errors f, c.program.HasFunction f →
      Checked.Meets c.Unending (fun s? => ∀ s ∈ s?, RangeSet.Reachable s) (learn errors f))
    (fs : List FuncId) : (∃ out, c.visitCallers learn fs errors = .ok out) ∨
      c.visitCallers learn fs errors = .error .tooDeep ∧ c.Unending .tooDeep := by
  refine (hc.meets_visitCallers (fun errors _ f => hlearn errors f) fs herrors).ok_or_error.imp
    (fun ⟨out, hout, _⟩ => ⟨out, hout⟩) ?_
  rintro ⟨e, he, hunending⟩
  obtain rfl := hunending.1
  exact ⟨he, hunending⟩

/-- **Propagation only adds, and only where it may.** Along checks it leaves every entry as it is
and adds one for each of the functions that it counts; after handlers it leaves every value where it
is. What changes are entries of functions that may gain values. A propagation has a result, unless a
resolution never ends. -/
theorem propagation_only_adds {ds : List Directive} (hbuild : Program.build ds = .ok c.program)
    (hc : c.Valid) (errors : ErrorTable) :
    (∀ out, c.visitCheckers errors = .ok out → ∃ added, c.Adds errors out added) ∧
    (∀ handlers out, c.visitHandlerCallers handlers errors = .ok out →
      errors.Widens out.errors ∧ ∀ k, out.errors.get? k ≠ errors.get? k →
        k.slot = 0 ∧ c.MayGain k.function) ∧
    (c.Sound → errors.Within c.program → ∀ handlers,
      ∀ run ∈ [c.visitCheckers errors, c.visitHandlerCallers handlers errors],
        (∃ out, run = .ok out) ∨ run = .error .tooDeep ∧ c.Unending .tooDeep) := by
  refine ⟨fun out => exists_adds_of_visitCheckers hbuild hc,
    fun handlers out => widens_of_visitHandlerCallers, fun hsound hwithin handlers => ?_⟩
  rw [List.forall_mem_cons, List.forall_mem_singleton]
  exact ⟨hsound.visitCallers_ok_or_unending hwithin (fun _ _ => hsound.meets_learnFromChecks _) _,
    hsound.visitCallers_ok_or_unending hwithin (fun _ _ => hsound.meets_learnFromHandlers _ _) _⟩

/-- `inner` and `outer`, and `steady`, which checks `source` and returns `-7` in any case. -/
def innerOuterAndSteady : List Directive :=
  innerAndOuter ++ [.declare ⟨0⟩ "steady" [] (.int 32),
    .define ⟨3⟩ [.block, .block, .block,
      .moveTo ⟨6⟩, .call ⟨0⟩ [], .cmp .slt (.inst ⟨11⟩) (.int 0 32), .branch (.inst ⟨12⟩) ⟨7⟩ ⟨8⟩,
      .moveTo ⟨7⟩, .ret (some (.int (-7) 32)), .moveTo ⟨8⟩, .ret (some (.int (-7) 32))]]

/-- `inner` gains `-2`, which it returns where `source` fails. If `source` is a handler, `outer`
gains values, since it returns a constant after calling `source`. `steady` does so too, but it is
left out, as it always returns the same one. -/
theorem innerOuterAndSteady_propagation : ∃ c out handled,
    ofDirectives innerOuterAndSteady = .ok c ∧ c.Valid ∧
    c.visitCheckers failingSource = .ok out ∧ out.gained = 1 ∧
    c.Adds failingSource out [⟨1⟩] ∧ out.errors.get? ⟨⟨1⟩, 0⟩ = some (.singleton (-2)) ∧
    c.visitHandlerCallers (.ofList [⟨0⟩]) failingSource = .ok handled ∧
    handled.errors.get? ⟨⟨2⟩, 0⟩ = some (.singleton 0) ∧ c.MayGain ⟨2⟩ ∧
    failingSource.Widens handled.errors ∧
    c.program.AlwaysReturns ⟨3⟩ (.int (-7) 32) ∧ out.errors.get? ⟨⟨3⟩, 0⟩ = none ∧
    handled.errors.get? ⟨⟨3⟩, 0⟩ = none := by
  obtain ⟨c, hc, out, hout, handled, hhandled, is, his, hgained, hentries, houter, hne, hsteady⟩ :
      ∃ c, ofDirectives innerOuterAndSteady = .ok c ∧
      ∃ out, c.visitCheckers failingSource = .ok out ∧
      ∃ handled, c.visitHandlerCallers (.ofList [⟨0⟩]) failingSource = .ok handled ∧
      ∃ is, c.program.returnsIn ⟨3⟩ = .ok is ∧ out.gained = 1 ∧
      out.errors.entries = [(⟨⟨0⟩, 0⟩, .singleton (-1)), (⟨⟨1⟩, 0⟩, .singleton (-2))] ∧
      handled.errors.get? ⟨⟨2⟩, 0⟩ = some (.singleton 0) ∧ is ≠ [] ∧
      ∀ i ∈ is, c.program.op i = .ok (.ret (some (.int (-7) 32))) := by decide +kernel
  have hvalid := valid_of_ofDirectives hc
  obtain ⟨hchecks, hhandlers, -⟩ :=
    propagation_only_adds (build_of_ofDirectives hc) hvalid failingSource
  obtain ⟨added, hadded⟩ := hchecks out hout
  obtain ⟨hwidens, hchanged⟩ := hhandlers _ handled hhandled
  have hinner : out.errors.get? ⟨⟨1⟩, 0⟩ = some (.singleton (-2)) := by
    rw [Table.get?, hentries]
    rfl
  obtain rfl : added = [⟨1⟩] := by
    obtain ⟨f, rfl⟩ := List.length_eq_one_iff.mp (hadded.counted.symm.trans hgained)
    obtain hold | ⟨f', hf', heq⟩ := (hadded.keys _).mp (Option.isSome_of_eq_some hinner)
    · cases hold
    · rw [List.mem_singleton.mp hf'] at heq
      exact congrArg (fun k : ReturnSlot => [k.function]) heq.symm
  obtain ⟨-, hmay⟩ := hchanged ⟨⟨2⟩, 0⟩ fun heq => by cases houter.symm.trans heq
  have halways : c.program.AlwaysReturns ⟨3⟩ (.int (-7) 32) :=
    ⟨Or.inl ⟨_, rfl⟩, is, his, hne, hsteady⟩
  have hlast : out.errors.get? ⟨⟨3⟩, 0⟩ = none := by
    rw [Table.get?, hentries]
    rfl
  have hkept : handled.errors.get? ⟨⟨3⟩, 0⟩ = failingSource.get? ⟨⟨3⟩, 0⟩ := by
    by_contra hne
    exact (hchanged _ hne).2.not_alwaysReturns _ halways
  exact ⟨c, out, handled, hc, hvalid, hout, hgained, hadded, hinner, hhandled, houter,
    hmay, hwidens, halways, hlast, hkept⟩

end Context

end ErrorReturns
