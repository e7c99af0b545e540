import ErrorReturns.Proofs.CallGraph

/-!
# What is noted is listed in both directions

A call graph begins empty or with the calls by name, and then takes notes: a function that a call
may reach, or the functions that a call through an address may go to, as a coarse or a fine analysis
found them. Notes may repeat and overlap. Whatever their order, the graph lists a call among the
callers of a function exactly if it lists the function among the callees of the call, and it lists
what has been noted and nothing else (`mem_callers_noteAll`). A call is marked as coarsely known
exactly if some note comes from a coarse analysis, and the mark stays (`isCoarse_noteAll`).

A call without callees has no entry at all, and the callers of a function are in the order of the
instructions. After the calls by name alone, what a call may reach is the one function that it
names.
-/

namespace ErrorReturns

open Checked

namespace CallGraph

/-! ## Notes -/

/-- **Something noted about a call**: one function that it may reach, or those that a call through
an address may go to. -/
inductive Note where
  | target (call : InstId) (f : FuncId)
  | indirect (call : InstId) (fs : List FuncId) (isCoarse : Bool)

namespace Note

/-- Take a note. -/
def addTo (g : CallGraph) : Note → CallGraph
  | target call f => g.addTarget call f
  | indirect call fs isCoarse => g.addIndirect call fs isCoarse

/-- Whether a note says that a call may reach a function. -/
def Names (call : InstId) (f : FuncId) : Note → Prop
  | target call' f' => call = call' ∧ f = f'
  | indirect call' fs _ => call = call' ∧ f ∈ fs

/-- Whether a note marks a call as coarsely known. -/
def Marks (call : InstId) : Note → Prop
  | target _ _ => False
  | indirect call' _ isCoarse => call = call' ∧ isCoarse = true

end Note

/-- Take several notes, one after another. -/
def noteAll (g : CallGraph) (notes : List Note) : CallGraph := notes.foldl Note.addTo g

variable {g : CallGraph} {call : InstId} {f : FuncId}

theorem Made.addTo (hg : g.Made) (note : Note) : (note.addTo g).Made := by
  cases note with
  | target call f => exact hg.addTarget call f
  | indirect call fs isCoarse => exact hg.addIndirect call fs isCoarse

theorem Made.noteAll (hg : g.Made) (notes : List Note) : (g.noteAll notes).Made :=
  List.foldlRecOn notes _ hg fun _ hg note _ => hg.addTo note

/-! ## What is listed -/

@[simp] theorem mem_callers_foldl_addTarget {call' : InstId} (fs : List FuncId) :
    call ∈ (fs.foldl (fun g f => g.addTarget call' f) g).callers f ↔
      call = call' ∧ f ∈ fs ∨ call ∈ g.callers f := by
  induction fs generalizing g with
  | nil => simp
  | cons f' rest ih =>
    rw [List.foldl_cons, ih, mem_callers_addTarget, List.mem_cons, and_or_left, or_assoc,
      or_left_comm]

/-- **A note is listed**, and what has been listed before stays so. -/
@[simp] theorem mem_callers_addTo (note : Note) :
    call ∈ (note.addTo g).callers f ↔ note.Names call f ∨ call ∈ g.callers f := by
  cases note with
  | target call' f' => exact mem_callers_addTarget
  | indirect call' fs isCoarse =>
    cases isCoarse <;> exact mem_callers_foldl_addTarget fs

/-- **What is listed after some notes** is what they say and what was listed before. -/
@[simp] theorem mem_callers_noteAll (notes : List Note) :
    call ∈ (g.noteAll notes).callers f ↔
      (∃ note ∈ notes, note.Names call f) ∨ call ∈ g.callers f := by
  induction notes generalizing g with
  | nil => simp [noteAll]
  | cons note rest ih =>
    have hrest : (g.noteAll (note :: rest)) = (note.addTo g).noteAll rest := rfl
    rw [hrest, ih, mem_callers_addTo, List.exists_mem_cons_iff, or_assoc, or_left_comm]

/-! ## What is marked -/

@[simp] theorem coarse_foldl_addTarget {call' : InstId} (fs : List FuncId) :
    (fs.foldl (fun g f => g.addTarget call' f) g).coarse = g.coarse :=
  List.foldlRecOn (motive := fun g' : CallGraph => g'.coarse = g.coarse) fs _ rfl
    fun _ h _ _ => h

/-- **A call through an address is marked** if its targets come from a coarse analysis. -/
@[simp] theorem isCoarse_addIndirect {call' : InstId} {fs : List FuncId} {isCoarse : Bool} :
    (g.addIndirect call' fs isCoarse).isCoarse call = true ↔
      call = call' ∧ isCoarse = true ∨ g.isCoarse call = true := by
  unfold addIndirect CallGraph.isCoarse
  cases isCoarse with
  | true => simp [coarse_foldl_addTarget]
  | false => simp [coarse_foldl_addTarget]

/-- **What is marked after some notes** is what they mark and what was marked before. -/
@[simp] theorem isCoarse_noteAll (notes : List Note) :
    (g.noteAll notes).isCoarse call = true ↔
      (∃ note ∈ notes, note.Marks call) ∨ g.isCoarse call = true := by
  induction notes generalizing g with
  | nil => simp [noteAll]
  | cons note rest ih =>
    have hrest : g.noteAll (note :: rest) = (note.addTo g).noteAll rest := rfl
    have hnote : (note.addTo g).isCoarse call = true ↔
        note.Marks call ∨ g.isCoarse call = true := by
      cases note with
      | target call' f => exact (or_iff_right id).symm
      | indirect call' fs isCoarse => exact isCoarse_addIndirect
    rw [hrest, ih, hnote, List.exists_mem_cons_iff, or_assoc, or_left_comm]

/-- Calls by name are known exactly. -/
theorem isCoarse_ofDirectCalls {p : Program} (h : ofDirectCalls p = .ok g) (call : InstId) :
    g.isCoarse call = false := by
  have hnone : g.coarse = {} := by
    refine foldlM_induction (P := fun g : CallGraph => g.coarse = {}) (fun g hg f _ g' h => ?_)
      rfl h
    obtain ⟨calls, -, h⟩ := bind_eq_ok_iff.mp h
    refine foldlM_induction (P := fun g : CallGraph => g.coarse = {}) (fun g hg i _ g' h => ?_) hg h
    obtain ⟨callee?, -, h⟩ := bind_eq_ok_iff.mp h
    cases callee? with
    | none => exact Except.ok.inj h ▸ hg
    | some f =>
      simp only [bind_eq_ok_iff, pure_eq_ok, Except.ok.injEq] at h
      obtain ⟨x, -, rfl⟩ := h
      split <;> exact hg
  rw [CallGraph.isCoarse, hnone]
  rfl

/-! ## The order of callers -/

/-- The callers of a function are in the order of the instructions. -/
theorem pairwise_callers (g : CallGraph) (f : FuncId) :
    (g.callers f).Pairwise fun a b => a.index < b.index := by
  unfold callers
  cases hcallers : g.sources.get? f with
  | none => exact .nil
  | some calls => exact calls.increasing.imp fun h => Nat.compare_eq_lt.mp h

theorem mem_calleeList_iff : f ∈ g.calleeList call ↔ ∃ fs, g.callees? call = some fs ∧ f ∈ fs := by
  unfold calleeList
  cases g.callees? call with
  | none => exact iff_of_false List.not_mem_nil (by simp)
  | some fs => simp only [Option.getD_some, Option.some.injEq, exists_eq_left']; rfl

/-! ## Calls by name -/

/-- **A call by name may reach the function that it names**, and no other call has an entry. -/
theorem callees?_ofDirectCalls_eq_some_iff {p : Program} (h : ofDirectCalls p = .ok g)
    {fs : SortedSet FuncId} :
    g.callees? call = some fs ↔ ∃ f, fs = .ofList [f] ∧ p.CallsByName call f := by
  have hmade := made_ofDirectCalls h
  have hlisted : ∀ f, f ∈ g.calleeList call ↔ p.CallsByName call f := fun f =>
    (hmade.linked.inverse call f).trans (mem_callers_ofDirectCalls_iff h)
  -- a call names one function, so that a set of callees has no other members
  have hsingle : ∀ fs, g.callees? call = some fs → ∀ f ∈ fs, fs = .ofList [f] := by
    intro fs hfs f hf
    refine SortedSet.ext fun f' => ?_
    rw [SortedSet.mem_ofList, List.mem_singleton]
    refine ⟨fun hf' => ?_, fun hf' => hf' ▸ hf⟩
    obtain ⟨-, ⟨args, hop⟩, -⟩ := (hlisted f).mp (mem_calleeList_iff.mpr ⟨fs, hfs, hf⟩)
    obtain ⟨-, ⟨args', hop'⟩, -⟩ := (hlisted f').mp (mem_calleeList_iff.mpr ⟨fs, hfs, hf'⟩)
    cases hop.symm.trans hop'
    rfl
  constructor
  · intro hfs
    obtain ⟨f, hf⟩ := List.exists_mem_of_ne_nil _ (hmade.toList_ne_nil hfs)
    exact ⟨f, hsingle fs hfs f hf, (hlisted f).mp (mem_calleeList_iff.mpr ⟨fs, hfs, hf⟩)⟩
  · rintro ⟨f, rfl, hcall⟩
    obtain ⟨fs, hfs, hf⟩ := mem_calleeList_iff.mp ((hlisted f).mpr hcall)
    rw [hfs, hsingle fs hfs f hf]

/-- **The calls by name can be listed** if the functions that they name exist. -/
theorem exists_ofDirectCalls_eq_ok_iff {p : Program} (hp : p.Inside) :
    (∃ g, ofDirectCalls p = .ok g) ↔ ∀ w insts, p.instsIn w = .ok insts → ∀ call ∈ insts,
      ∀ f args, p.op call = .ok (.call (.direct f) args) → p.HasFunction f := by
  constructor
  · rintro ⟨g, h⟩ w insts hinsts call hcall f args hop
    obtain ⟨x, hx, -⟩ := lists_of_mem_instsIn h hinsts hcall f
      (Program.directCallee?_eq_some_iff.mpr ⟨args, hop⟩)
    exact Program.hasFunction_of_function_eq_ok hx
  · intro h
    -- no fault is possible, so to meet anything is to return
    suffices hmeets : Meets (fun _ => False) (fun _ => True) (ofDirectCalls p) by
      obtain ⟨g, hg, -⟩ := hmeets.exists_eq_ok
      exact ⟨g, hg⟩
    refine meets_foldlM (fun g _ w hw => ?_) trivial
    obtain ⟨k, hk, rfl⟩ := List.mem_map.mp hw
    obtain ⟨calls, hcalls, -⟩ :=
      (hp.meets_callsIn (F := fun _ => False) (List.mem_range.mp hk)).exists_eq_ok
    rw [hcalls, ok_bind]
    obtain ⟨insts, hinsts, hcalls⟩ := bind_eq_ok_iff.mp hcalls
    refine meets_foldlM (fun g _ call hcall => ?_) trivial
    obtain ⟨hcall, op, hop, -⟩ := (Program.mem_filterM_op_iff hcalls).mp hcall
    have hcallee : ∃ callee?, p.directCallee? call = .ok callee? := by
      rw [Program.directCallee?, hop, ok_bind]
      split <;> exact ⟨_, rfl⟩
    obtain ⟨callee?, hcallee⟩ := hcallee
    rw [addDirect, hcallee, ok_bind]
    cases callee? with
    | none => exact meets_pure trivial
    | some f =>
      obtain ⟨args, hop⟩ := Program.directCallee?_eq_some_iff.mp hcallee
      exact (Program.meets_function (h _ insts hinsts call hcall f args hop)).map fun _ _ => trivial

/-- **Callees and callers are inverse.** Begin with no calls or with the calls by name, and take any
notes: a function is among the callees of a call exactly if the call is among the callers of the
function, which is so exactly if a note says it or it was so at the beginning. No call has an empty
set of callees, callers are strictly increasing, and a call is marked as coarsely known exactly if a
note marks it. After the calls by name alone, the set of
callees of a call holds one function, and it holds that function exactly if the call is a call by
name of it. For a program that is built, the calls by name can be listed exactly if all the
functions that they name exist. -/
theorem callees_and_callers_inverse (p : Program) :
    (∀ start, start = {} ∨ ofDirectCalls p = .ok start → ∀ notes g, g = noteAll start notes →
      (∀ call f, (∃ fs, g.callees? call = some fs ∧ f ∈ fs) ↔ call ∈ g.callers f) ∧
      (∀ call f, call ∈ g.callers f ↔
        (∃ note ∈ notes, note.Names call f) ∨ call ∈ start.callers f) ∧
      (∀ call, g.callees? call ≠ some {}) ∧
      (∀ f, (g.callers f).Pairwise fun a b => a.index < b.index) ∧
      ∀ call, g.isCoarse call = true ↔ ∃ note ∈ notes, note.Marks call) ∧
    (∀ g, ofDirectCalls p = .ok g →
      (∀ call f, g.callees? call = some (.ofList [f]) ↔ p.CallsByName call f) ∧
      ∀ call fs, g.callees? call = some fs → ∃ f, fs = .ofList [f]) ∧
    ∀ ds, Program.build ds = .ok p →
      ((∃ g, ofDirectCalls p = .ok g) ↔ ∀ w insts, p.instsIn w = .ok insts → ∀ call ∈ insts,
        ∀ f args, p.op call = .ok (.call (.direct f) args) → p.HasFunction f) := by
  refine ⟨fun start hstart notes g hg => ?_, fun g hg => ⟨fun call f => ?_, fun call fs hfs => ?_⟩,
    fun ds hbuild => exists_ofDirectCalls_eq_ok_iff (Program.inside_of_build hbuild)⟩
  · have hmade : start.Made := by
      rcases hstart with rfl | hstart
      · exact .empty
      · exact made_ofDirectCalls hstart
    have hexact : ∀ call, start.isCoarse call = false := by
      rcases hstart with rfl | hstart
      · exact fun _ => rfl
      · exact isCoarse_ofDirectCalls hstart
    subst hg
    have hnoted := hmade.noteAll notes
    refine ⟨fun call f => ?_, fun call f => mem_callers_noteAll notes, fun call hempty => ?_,
      pairwise_callers _, fun call => ?_⟩
    · rw [← mem_calleeList_iff]
      exact hnoted.linked.inverse call f
    · exact hnoted.toList_ne_nil hempty rfl
    · rw [isCoarse_noteAll, hexact call, or_iff_left Bool.false_ne_true]
  · rw [callees?_ofDirectCalls_eq_some_iff hg]
    refine ⟨fun ⟨f', hf, hcall⟩ => ?_, fun hcall => ⟨f, rfl, hcall⟩⟩
    obtain rfl : f = f' := List.singleton_inj.mp (congrArg SortedSet.toList hf)
    exact hcall
  · obtain ⟨f, hf, -⟩ := (callees?_ofDirectCalls_eq_some_iff hg).mp hfs
    exact ⟨f, hf⟩

/-- A call by name, a call of an annotation, and a call through an address. -/
def calledThreeWays : List Directive :=
  [.module "m", .declare ⟨0⟩ "caller" [.ptr] .void, .declare ⟨0⟩ "callee" [] .void,
    .declare ⟨0⟩ "annotation" [] .void, .setAttributes ⟨2⟩ { intrinsic := true },
    .define ⟨0⟩ [.call ⟨1⟩ [], .call ⟨2⟩ [], .callIndirect (.arg ⟨0⟩ 0) [] .void, .ret none]]

/-- Notes that repeat each other and the call by name; the first one is coarse. -/
def repeatedNotes : List Note :=
  [.indirect ⟨2⟩ [⟨1⟩, ⟨0⟩, ⟨1⟩] true, .target ⟨0⟩ ⟨1⟩, .indirect ⟨2⟩ [⟨1⟩] false]

/-- A target that is noted twice is listed once, from either side, and the call that was noted as
coarse is marked. -/
theorem repeatedNotes_inverse : ∃ p g, Program.build calledThreeWays = .ok p ∧
    ofDirectCalls p = .ok g ∧ p.CallsByName ⟨0⟩ ⟨1⟩ ∧ ¬p.CallsByName ⟨1⟩ ⟨2⟩ ∧
    (g.noteAll repeatedNotes).callers ⟨1⟩ = [⟨0⟩, ⟨2⟩] ∧
    (g.noteAll repeatedNotes).isCoarse ⟨2⟩ = true ∧
    ∃ fs, (g.noteAll repeatedNotes).callees? ⟨2⟩ = some fs ∧ ⟨1⟩ ∈ fs := by
  obtain ⟨p, hp, g, hg, hnamed, hannotation, hcallers⟩ :
      ∃ p, Program.build calledThreeWays = .ok p ∧ ∃ g, ofDirectCalls p = .ok g ∧
      g.callees? ⟨0⟩ = some (.ofList [⟨1⟩]) ∧ g.callees? ⟨1⟩ = none ∧
      (g.noteAll repeatedNotes).callers ⟨1⟩ = [⟨0⟩, ⟨2⟩] := by decide +kernel
  obtain ⟨hnoted, hdirect, -⟩ := callees_and_callers_inverse p
  obtain ⟨hinverse, -, -, -, hmarked⟩ := hnoted g (.inr hg) repeatedNotes _ rfl
  refine ⟨p, g, hp, hg, ((hdirect g hg).1 _ _).mp hnamed, fun hcall => ?_, hcallers,
    (hmarked _).mpr ⟨.indirect ⟨2⟩ [⟨1⟩, ⟨0⟩, ⟨1⟩] true, List.mem_cons_self, rfl, rfl⟩,
    (hinverse _ _).mpr ?_⟩
  · rw [((hdirect g hg).1 _ _).mpr hcall] at hannotation
    cases hannotation
  · rw [hcallers]
    decide

end CallGraph

end ErrorReturns
