import ErrorReturns.Proofs.Finding.Inside
import ErrorReturns.Proofs.Word
import Mathlib.Data.List.Forall2

/-!
# Truncated error values

A call whose result may be an error is reported if its result is cut to a width that changes an
error value, unless it is also compared or switched on. There is one report for each such
conversion of each call of each function, and no other (`Context.truncations_exact`).

The search looks at bounds only: a width loses no value of a set if it holds the lowest and the
highest one (`fitsWidth_eq_false_iff`). It goes through functions, their calls and the users of
these in turn, and what is found is put together from one level to the next (`OneEach.flatten`).
-/

namespace ErrorReturns

open Checked (bind_eq_ok_iff)

/-! ## Lists with one entry for each -/

section OneEach

variable {α β ι κ : Type}

/-- **One entry for each**: the entries of a list belong, in turn, to the things that have some
property, and each of these has its turn once. -/
def OneEach (P : ι → Prop) (R : ι → β → Prop) (ys : List β) : Prop :=
  ∃ is : List ι, is.Nodup ∧ (∀ i, i ∈ is ↔ P i) ∧ List.Forall₂ R is ys

theorem oneEach_nil {P : ι → Prop} {R : ι → β → Prop} (h : ∀ i, ¬ P i) : OneEach P R [] :=
  ⟨[], List.nodup_nil, fun i => iff_of_false List.not_mem_nil (h i), .nil⟩

theorem forall₂_of_mapM {f : α → Checked β} {l : List α} {ys : List β} (h : l.mapM f = .ok ys) :
    List.Forall₂ (fun x y => f x = .ok y) l ys := by
  have heq := Checked.mapM_eq_ok_iff.mp h
  rwa [← List.forall₂_eq_eq_eq, List.forall₂_map_left_iff, List.forall₂_map_right_iff] at heq

/-- The results for a list of things, each of which has one entry for each thing of its own. -/
theorem OneEach.flatten {f : α → Checked (List β)} {P : α → ι → Prop} {R : α → ι → β → Prop}
    {l : List α} (hl : l.Nodup)
    (hone : ∀ x ∈ l, ∀ ys, f x = .ok ys → OneEach (P x) (R x) ys) {yss : List (List β)}
    (h : l.mapM f = .ok yss) :
    OneEach (fun p : α × ι => p.1 ∈ l ∧ P p.1 p.2) (fun p => R p.1 p.2) yss.flatten := by
  induction l generalizing yss with
  | nil =>
    obtain rfl := Except.ok.inj h
    exact oneEach_nil fun _ hp => List.not_mem_nil hp.1
  | cons x rest ih =>
    rw [List.mapM_cons] at h
    simp only [bind_eq_ok_iff, Checked.pure_eq_ok, Except.ok.injEq] at h
    obtain ⟨ys, hys, yss', hrest, rfl⟩ := h
    rw [List.nodup_cons] at hl
    rw [List.forall_mem_cons] at hone
    obtain ⟨is, hnodup, hmem, hrel⟩ := hone.1 ys hys
    obtain ⟨ps, hnodup', hmem', hrel'⟩ := ih hl.2 hone.2 hrest
    -- the pairs of `x` are apart from those of the rest, as `x` occurs once
    refine ⟨is.map (x, ·) ++ ps, ?_, fun p => ?_, ?_⟩
    · refine (hnodup.map fun _ _ heq => (Prod.mk.inj heq).2).append hnodup' fun p hp hp' => ?_
      obtain ⟨i, -, rfl⟩ := List.mem_map.mp hp
      exact hl.1 ((hmem' _).mp hp').1
    · obtain ⟨y, i⟩ := p
      simp only [List.mem_append, List.mem_map, Prod.mk.injEq, List.mem_cons, hmem', or_and_right]
      refine or_congr_left ⟨?_, ?_⟩
      · rintro ⟨j, hj, rfl, rfl⟩
        exact ⟨rfl, (hmem j).mp hj⟩
      · rintro ⟨rfl, hi⟩
        exact ⟨i, (hmem i).mpr hi, rfl, rfl⟩
    · have hrel : List.Forall₂ (fun p : α × ι => R p.1 p.2) (is.map (x, ·)) ys :=
        List.forall₂_map_left_iff.mpr hrel
      exact List.rel_append hrel hrel'

/-- The things may be given other names, if these tell them apart. -/
theorem OneEach.rename {P : ι → Prop} {R : ι → β → Prop} {ys : List β} (h : OneEach P R ys)
    {e : ι → κ} (he : ∀ i j, P i → P j → e i = e j → i = j) {P' : κ → Prop}
    (hP : ∀ k, P' k ↔ ∃ i, P i ∧ e i = k) {R' : κ → β → Prop}
    (hR : ∀ i y, P i → R i y → R' (e i) y) : OneEach P' R' ys := by
  obtain ⟨is, hnodup, hmem, hrel⟩ := h
  refine ⟨is.map e, ?_, fun k => ?_, ?_⟩
  · exact hnodup.map_on fun i hi j hj => he i j ((hmem i).mp hi) ((hmem j).mp hj)
  · simp only [List.mem_map, hmem, hP]
  · rw [List.forall₂_map_left_iff]
    exact ((List.forall₂_and_left _ _).mpr ⟨fun i hi => (hmem i).mp hi, hrel⟩).imp
      fun i y hiy => hR i y hiy.1 hiy.2

end OneEach

/-! ## Widths that lose values -/

/-- **A width loses a value of a set** exactly if it does not hold the bounds of the set. -/
theorem fitsWidth_eq_false_iff {s : RangeSet} (h : s.Canonical) {low high : Int}
    (hlow : s.lowest? = some low) (hhigh : s.highest? = some high) {bits : Nat} (hbits : 1 ≤ bits) :
    fitsWidth bits low high = false ↔ ∃ v ∈ s, v ≠ Word.wrapSigned bits v := by
  obtain ⟨hlowMem, hle⟩ := h.lowest?_spec hlow
  obtain ⟨hhighMem, hge⟩ := h.highest?_spec hhigh
  have hfits : fitsWidth bits low high = true ↔ ∀ v ∈ s, Word.Fits bits v := by
    rw [fitsWidth, Bool.and_eq_true, decide_eq_true_iff, decide_eq_true_iff]
    constructor
    · rintro ⟨hl, hh⟩ v hv
      exact ⟨Int.le_trans hl (hle v hv), Int.le_trans (hge v hv) hh⟩
    · exact fun hall => ⟨(hall low hlowMem).1, (hall high hhighMem).2⟩
  rw [← Bool.not_eq_true, hfits]
  simp only [not_forall, exists_prop, ne_eq, eq_comm (b := Word.wrapSigned bits _),
    Word.wrapSigned_eq_self_iff hbits]

namespace Context

variable {c : Context} {s : RangeSet}

/-- A conversion of the result of a call, together with a function that the call may reach. -/
structure Truncation where
  function : FuncId
  call : InstId
  cast : InstId

variable (c) in
/-- **A conversion changes a value of a set**: it cuts the result of a call to a width below 64 bits
that does not hold the value. -/
def Changes (s : RangeSet) (call cast : InstId) : Prop :=
  ∃ inst bits, c.program.inst cast = .ok inst ∧ inst.op = .cast .trunc (.inst call) ∧
    inst.ty = .int bits ∧ 0 < bits ∧ bits < 64 ∧ ∃ v ∈ s, v ≠ Word.wrapSigned bits v

variable (c) in
/-- **A conversion cuts off a value of a set** if it changes the value, the call is in a function
under analysis, and nothing that reads its result compares it or switches on it. -/
structure CutsOff (s : RangeSet) (call cast : InstId) : Prop where
  analysed : ∃ caller, c.program.functionOf call = .ok caller ∧ c.isAnalysed caller = true
  untested : ∀ user op, c.program.op user = .ok op → .inst call ∈ op.operands →
    (∀ pred a b, op ≠ .cmp pred a b) ∧ ∀ v default cases, op ≠ .switch v default cases
  changes : c.Changes s call cast

variable (c) in
/-- **A truncation of an error value** of a function by a conversion of the result of a call that
may reach the function. -/
def Truncates (errors : ErrorTable) (t : Truncation) : Prop :=
  t.function ∈ c.graph.calleeList t.call ∧
    ∃ s, errors.get? ⟨t.function, 0⟩ = some s ∧ c.CutsOff s t.call t.cast

variable (c) in
/-- **The report of a truncation.** -/
structure ReportedAs (k : Knowledge) (t : Truncation) (r : Violation) : Prop where
  kind : r.kind = .truncation
  location : ∃ cast call, c.program.inst t.cast = .ok cast ∧ c.program.inst t.call = .ok call ∧
    r.location = (cast.loc <|> call.loc).map (·.position)
  callees : ∃ function, c.program.function t.function = .ok function ∧ r.callees = [function.name]
  evidence : ∃ s, k.errors.get? ⟨t.function, 0⟩ = some s ∧ r.evidence = [s]
  confidence : r.confidence = k.confidenceOf ⟨t.function, 0⟩

/-! ## One level after the other -/

/-- A user cuts values off if it is a cast to a width that does not hold all of them. -/
theorem losesValues_eq_true_iff {low high : Int} {user : InstId} :
    c.losesValues low high user = .ok true ↔
      ∃ inst operand bits, c.program.inst user = .ok inst ∧ inst.op = .cast .trunc operand ∧
        inst.ty = .int bits ∧ 0 < bits ∧ bits < 64 ∧ fitsWidth bits low high = false := by
  constructor
  · intro h
    obtain ⟨inst, hinst, h⟩ := bind_eq_ok_iff.mp h
    split at h
    case h_1 operand bits hop hty =>
      have hwidth : (0 < bits && bits < 64 && !fitsWidth bits low high) = true := Except.ok.inj h
      simp only [Bool.and_eq_true, decide_eq_true_iff, Bool.not_eq_true'] at hwidth
      exact ⟨inst, operand, bits, hinst, hop, hty, hwidth.1.1, hwidth.1.2, hwidth.2⟩
    case h_2 => cases h
  · rintro ⟨inst, operand, bits, hinst, hop, hty, hpos, hlt, hfits⟩
    rw [losesValues, hinst, Checked.ok_bind, hop, hty]
    simp [hpos, hlt, hfits]

/-- The users of a result that are found to lose values are the conversions that change one. -/
theorem changes_iff (hs : s.Canonical) {low high : Int} (hlow : s.lowest? = some low)
    (hhigh : s.highest? = some high) {call : InstId} {users : List InstId}
    (hmem : ∀ u, u ∈ users ↔ ∃ op, c.program.op u = .ok op ∧ .inst call ∈ op.operands)
    {cast : InstId} :
    c.Changes s call cast ↔ cast ∈ users ∧ c.losesValues low high cast = .ok true := by
  rw [hmem, losesValues_eq_true_iff]
  constructor
  · rintro ⟨inst, bits, hinst, hop, hty, hpos, hlt, hlost⟩
    refine ⟨⟨inst.op, by rw [Arena.op, hinst]; rfl, by rw [hop]; exact List.mem_singleton.mpr rfl⟩,
      inst, _, bits, hinst, hop, hty, hpos, hlt, ?_⟩
    exact (fitsWidth_eq_false_iff hs hlow hhigh hpos).mpr hlost
  · rintro ⟨⟨op, hop', hreads⟩, inst, operand, bits, hinst, hop, hty, hpos, hlt, hfits⟩
    obtain rfl : inst.op = op := by
      rw [Arena.op, hinst] at hop'
      exact Except.ok.inj hop'
    -- a conversion reads nothing but what it converts
    obtain rfl : .inst call = operand := by
      rw [hop] at hreads
      exact List.mem_singleton.mp hreads
    exact ⟨inst, bits, hinst, hop, hty, hpos, hlt,
      (fitsWidth_eq_false_iff hs hlow hhigh hpos).mp hfits⟩

theorem reportedAs_of_truncationReport {k : Knowledge} {f : FuncId}
    (hget : k.errors.get? ⟨f, 0⟩ = some s) {call cast : InstId} {r : Violation}
    (h : c.truncationReport k f s call cast = .ok r) : c.ReportedAs k ⟨f, call, cast⟩ r := by
  simp only [truncationReport, bind_eq_ok_iff, Checked.pure_eq_ok, Except.ok.injEq] at h
  obtain ⟨x, hx, y, hy, function, hfunction, rfl⟩ := h
  exact ⟨rfl, ⟨x, y, hx, hy, rfl⟩, ⟨function, hfunction, rfl⟩, ⟨s, hget, rfl⟩, rfl⟩

/-- A result is tested directly if a comparison or a switch reads it. -/
theorem isTestedDirectly_eq_false_iff {users : List InstId} {tested : Bool}
    (h : c.isTestedDirectly users = .ok tested) : tested = false ↔
      ∀ user ∈ users, ∀ op, c.program.op user = .ok op →
        (∀ pred a b, op ≠ .cmp pred a b) ∧ ∀ v default cases, op ≠ .switch v default cases := by
  rw [← Bool.not_eq_true, Checked.anyM_eq_true_iff h, not_exists]
  refine forall_congr' fun user => ?_
  rw [not_and]
  refine forall_congr' fun _ => ⟨fun hno op hop => ?_, fun hall htrue => ?_⟩
  · rw [hop, Checked.ok_bind] at hno
    refine ⟨?_, ?_⟩ <;>
    · rintro _ _ _ rfl
      exact hno rfl
  · obtain ⟨op, hop, htrue⟩ := bind_eq_ok_iff.mp htrue
    obtain ⟨hcmp, hswitch⟩ := hall op hop
    split at htrue
    · exact hcmp _ _ _ rfl
    · exact hswitch _ _ _ rfl
    · cases htrue

section Levels

variable {ds : List Directive} (hbuild : Program.build ds = .ok c.program) {k : Knowledge}
  {f : FuncId}
include hbuild

/-- The truncations of the result of a call: one for each conversion that cuts off a value. -/
theorem oneEach_truncationsOfCall (hs : s.Canonical) {low high : Int}
    (hlow : s.lowest? = some low) (hhigh : s.highest? = some high)
    (hget : k.errors.get? ⟨f, 0⟩ = some s) {call : InstId} (hcall : c.program.HasInst call)
    {records : List Violation} (h : c.truncationsOfCall k f s low high call = .ok records) :
    OneEach (c.CutsOff s call) (fun cast => c.ReportedAs k ⟨f, call, cast⟩) records := by
  obtain ⟨caller, hcaller, h⟩ := bind_eq_ok_iff.mp h
  split at h
  case isTrue hout =>
    obtain rfl := Except.ok.inj h
    refine oneEach_nil fun cast hcut => ?_
    obtain ⟨caller', hcaller', hanalysed⟩ := hcut.analysed
    obtain rfl := Except.ok.inj (hcaller.symm.trans hcaller')
    simp [hanalysed] at hout
  case isFalse hin =>
    have hanalysed : c.isAnalysed caller = true := by simpa using hin
    obtain ⟨-, -, -, hus, -⟩ := Arena.freeze_eq_ok (Program.edits_of_build hbuild).2
    obtain ⟨users, husers, hsorted, hmem⟩ := Program.exists_users_eq_ok hus hcall
    rw [husers, Checked.ok_bind] at h
    obtain ⟨tested, htested, h⟩ := bind_eq_ok_iff.mp h
    -- the users of the call are exactly the instructions that read it, so the test over the list of
    -- users is the one `CutsOff` asks of all instructions
    have htest := isTestedDirectly_eq_false_iff htested
    cases tested with
    | true =>
      obtain rfl := Except.ok.inj h
      refine oneEach_nil fun cast hcut => Bool.false_ne_true (htest.mpr ?_).symm
      intro user huser op hop
      obtain ⟨op', hop', hreads⟩ := (hmem user).mp huser
      obtain rfl := Except.ok.inj (hop.symm.trans hop')
      exact hcut.untested user op hop hreads
    | false =>
      obtain ⟨casts, hcasts, h⟩ := bind_eq_ok_iff.mp h
      have hnodup : users.Nodup := hsorted.imp fun hlt heq => by simp [heq] at hlt
      refine ⟨casts, (Checked.sublist_of_filterM hcasts).nodup hnodup, fun cast => ⟨?_, ?_⟩,
        (forall₂_of_mapM h).imp fun _ _ => reportedAs_of_truncationReport hget⟩
      · intro hcast
        refine ⟨⟨caller, hcaller, hanalysed⟩, fun user op hop hreads => ?_,
          (changes_iff hs hlow hhigh hmem).mpr (Checked.of_mem_filterM hcasts hcast)⟩
        exact htest.mp rfl user ((hmem user).mpr ⟨op, hop, hreads⟩) op hop
      · rintro ⟨-, -, hchanges⟩
        obtain ⟨huser, hloses⟩ := (changes_iff hs hlow hhigh hmem).mp hchanges
        exact Checked.mem_filterM hcasts huser hloses

/-- The truncations of the error values of a function: one for each call and each conversion. -/
theorem oneEach_truncationsOf (hgraph : c.graph.Linked) (hwithin : c.graph.Within c.program)
    {slot : ReturnSlot} (hs : s.Canonical) (hget : k.errors.get? slot = some s)
    {records : List Violation} (h : c.truncationsOf k slot s = .ok records) :
    OneEach (fun p : InstId × InstId => slot.slot = 0 ∧ slot.function ∈ c.graph.calleeList p.1 ∧
        c.CutsOff s p.1 p.2)
      (fun p => c.ReportedAs k ⟨slot.function, p.1, p.2⟩) records := by
  obtain ⟨f, n⟩ := slot
  unfold truncationsOf at h
  split at h
  case h_1 low high hzero hlow hhigh =>
    obtain rfl : n = 0 := hzero
    simp only [bind_eq_ok_iff, Checked.pure_eq_ok, Except.ok.injEq] at h
    obtain ⟨yss, hyss, rfl⟩ := h
    refine (OneEach.flatten (c.graph.nodup_callers f) (fun call hcall ys hys =>
      oneEach_truncationsOfCall hbuild hs hlow hhigh hget (hwithin.callers f call hcall) hys)
      hyss).rename (e := id) (fun _ _ _ _ heq => heq) (fun p => ?_) fun _ _ _ hr => hr
    simp only [hgraph.inverse, id_eq, exists_eq_right, true_and]
  case h_2 hother =>
    obtain rfl := Except.ok.inj h
    refine oneEach_nil ?_
    rintro p ⟨hzero, -, hcut⟩
    -- a set that loses a value is not empty, and so it has bounds
    obtain ⟨inst, bits, -, -, -, -, -, v, hv, -⟩ := hcut.changes
    obtain ⟨low, high, hlow, hhigh⟩ := RangeSet.exists_bounds hv
    exact hother low high hzero hlow hhigh

end Levels

/-- **Truncations are reported exactly.** If the functions and calls that are looked at exist, the
search has a result: one report for each truncation of an error value, and no other. -/
theorem truncations_exact {ds : List Directive} (hbuild : Program.build ds = .ok c.program)
    (hgraph : c.graph.Linked) (hwithin : c.graph.Within c.program) {k : Knowledge}
    (hk : Table.All (fun slot => c.program.HasFunction slot.function) RangeSet.Canonical k.errors) :
    ∃ records, c.findTruncations k = .ok records ∧
      OneEach (c.Truncates k.errors) (c.ReportedAs k) records := by
  obtain ⟨records, h, -⟩ := (Context.Sound.meets_findTruncations_of_inside
    (Program.inside_of_build hbuild) hwithin fun e he => (hk e he).1).exists_eq_ok
  refine ⟨records, h, ?_⟩
  simp only [findTruncations, bind_eq_ok_iff, Checked.pure_eq_ok, Except.ok.injEq] at h
  obtain ⟨yss, hyss, rfl⟩ := h
  have hget : ∀ e ∈ k.errors.entries, k.errors.get? e.1 = some e.2 := fun _ he =>
    Table.get?_eq_some_iff.mpr he
  -- the loop goes over slots with their sets, the statement over functions; only slot `0` reports,
  -- and it has one set, so no two pairs are renamed to one truncation
  refine (OneEach.flatten k.errors.increasing.nodup (fun e he ys hys =>
    oneEach_truncationsOf hbuild hgraph hwithin (hk e he).2 (hget e he) hys) hyss).rename
    (e := fun p => ⟨p.1.1.function, p.2.1, p.2.2⟩) ?_ (fun t => ⟨?_, ?_⟩) fun _ _ _ hr => hr
  · rintro ⟨⟨⟨f, n⟩, s⟩, call, cast⟩ ⟨⟨⟨f', n'⟩, s'⟩, call', cast'⟩ ⟨he, hn, -⟩ ⟨he', hn', -⟩ heq
    simp only [Truncation.mk.injEq] at heq
    obtain ⟨rfl, rfl, rfl⟩ := heq
    obtain rfl : n = 0 := hn
    obtain rfl : n' = 0 := hn'
    obtain rfl : s = s' :=
      Option.some.inj ((hget (⟨f, 0⟩, s) he).symm.trans (hget (⟨f, 0⟩, s') he'))
    rfl
  · rintro ⟨hcallee, s, hs, hcut⟩
    exact ⟨((⟨t.function, 0⟩, s), t.call, t.cast),
      ⟨Table.get?_eq_some_iff.mp hs, rfl, hcallee, hcut⟩, rfl⟩
  · rintro ⟨⟨⟨⟨f, n⟩, s⟩, call, cast⟩, ⟨he, hn, hcallee, hcut⟩, rfl⟩
    obtain rfl : n = 0 := hn
    exact ⟨hcallee, s, hget _ he, hcut⟩

/-- `careless` cuts the result of `source` to 8 and to 16 bits. `careful` cuts it to 8 bits too, but
compares it. -/
def cutSource : List Directive :=
  [.module "m", .declare ⟨0⟩ "source" [] (.int 32),
    .declare ⟨0⟩ "careless" [] .void, .declare ⟨0⟩ "careful" [] .void,
    .define ⟨1⟩ [.call ⟨0⟩ [], .cast .trunc (.inst ⟨0⟩) (.int 8),
      .cast .trunc (.inst ⟨0⟩) (.int 16), .ret none],
    .define ⟨2⟩ [.call ⟨0⟩ [], .cmp .slt (.inst ⟨4⟩) (.int 0 32),
      .cast .trunc (.inst ⟨4⟩) (.int 8), .ret none]]

/-- Eight bits are too few for `-200`. This is the only truncation: sixteen bits are enough, and
`careful` sees the whole value. -/
theorem cutSource_truncations : ∃ c records t, ofDirectives cutSource = .ok c ∧ c.graph.Linked ∧
    c.graph.Within c.program ∧
    c.findTruncations { errors := .ofList [(⟨⟨0⟩, 0⟩, .ofRange (-200) (-1))] } = .ok records ∧
    records.map (·.evidence) = [[.ofRange (-200) (-1)]] ∧
    ∀ t', c.Truncates (.ofList [(⟨⟨0⟩, 0⟩, .ofRange (-200) (-1))]) t' ↔ t' = t := by
  obtain ⟨c, hc, records, hrecords, hevidence, hsize⟩ : ∃ c, ofDirectives cutSource = .ok c ∧
      ∃ records, c.findTruncations { errors := .ofList [(⟨⟨0⟩, 0⟩, .ofRange (-200) (-1))] } =
        .ok records ∧ records.map (·.evidence) = [[.ofRange (-200) (-1)]] ∧
      c.program.functions.size = 3 := by decide +kernel
  have hlinked := linked_of_ofDirectives hc
  have hwithin := within_of_ofDirectives hc
  have hsource : 0 < c.program.functions.size := hsize.symm ▸ Nat.zero_lt_succ 2
  have hentries : Table.All (fun slot => c.program.HasFunction slot.function) RangeSet.Canonical
      (.ofList [((⟨⟨0⟩, 0⟩ : ReturnSlot), RangeSet.ofRange (-200) (-1))]) :=
    List.forall_mem_singleton.mpr ⟨hsource, by decide⟩
  obtain ⟨records', hrecords', ts, -, hmem, hrel⟩ := truncations_exact
    (k := { errors := .ofList [(⟨⟨0⟩, 0⟩, .ofRange (-200) (-1))] }) (build_of_ofDirectives hc)
    hlinked hwithin hentries
  obtain rfl := Except.ok.inj (hrecords.symm.trans hrecords')
  have hlength : ts.length = 1 := by
    rw [hrel.length_eq, ← List.length_map (f := Violation.evidence), hevidence]
    rfl
  obtain ⟨t, rfl⟩ := List.length_eq_one_iff.mp hlength
  exact ⟨c, records, t, hc, hlinked, hwithin, hrecords, hevidence, fun t' =>
    (hmem t').symm.trans List.mem_singleton⟩

end Context

end ErrorReturns
