import ErrorReturns.Schedule
import Mathlib.Data.List.Nodup

/-!
# Every module is worked on once

Workers take modules off a common counter, and one whose work fails overwrites it, so that the
counter can jump up, and even down when other workers have gone past the end in the meantime. Even
so the modules are handed out in order, whatever the order of the turns: a counter below the number
of modules is the number of modules taken so far, and once it is at the end it stays there. What a
turn can do is said once (`Pool.Turn`), what every turn keeps is `Pool.Orderly`, and what follows
for the end of the work is read off there.

Each worker comes to its end as well. A turn of its own brings it nearer to it and no turn of
another worker takes it away from it (`Pool.turnsLeft`), so any order in which all of them get
enough turns ends the work (`Pool.isFinal_runTurns`).
-/

namespace ErrorReturns.Schedule

variable {ε : Type} {count : Nat} {work : Nat → Except ε Unit}

/-- How many turns a worker needs at most to get from a phase to its next module, or to its end. -/
def Phase.turns : Phase ε → Nat
  | .idle | .failing _ => 1
  | .working _ => 2
  | .done => 0

namespace Pool

variable {s s' : Pool ε} {w : Nat}

/-! ## What a turn can do -/

section Turn

variable (count work s w)

/-- **A turn of a worker**, by what the worker is about to do. -/
inductive Turn : Pool ε → Prop
  | take (hw : s.workers[w]? = some .idle) (hnext : s.next < count) :
    Turn ({ s with next := s.next + 1, taken := s.taken ++ [s.next] }.enter w (.working s.next))
  | leave (hw : s.workers[w]? = some .idle) (hnext : count ≤ s.next) :
    Turn ({ s with next := s.next + 1 }.enter w .done)
  | finish {m : Nat} (hw : s.workers[w]? = some (.working m)) (hm : work m = .ok ()) :
    Turn (s.enter w .idle)
  | fail {m : Nat} {e : ε} (hw : s.workers[w]? = some (.working m)) (hm : work m = .error e) :
    Turn ({ s with next := count }.enter w (.failing e))
  | report {e : ε} (hw : s.workers[w]? = some (.failing e)) :
    Turn ({ s with failure := s.failure <|> some e }.enter w .done)
  /-- A worker that is done, or does not exist, does nothing. -/
  | rest (hw : s.workers[w]? = some .done ∨ s.workers[w]? = none) : Turn s

/-- What a worker does in its turn is one of the turns there are. -/
theorem turn_turn : s.Turn count work w (s.turn count work w) := by
  unfold turn
  split
  case h_1 hw =>
    unfold take
    split
    case isTrue hnext => exact .take hw hnext
    case isFalse hnext => exact .leave hw (Nat.le_of_not_lt hnext)
  case h_2 m hw =>
    split
    case h_1 hm => exact .finish hw hm
    case h_2 e hm => exact .fail hw hm
  case h_3 e hw => exact .report hw
  case h_4 hw => exact .rest (.inl hw)
  case h_5 hw => exact .rest (.inr hw)

end Turn

/-- What every turn keeps, a run keeps. -/
theorem runTurns_induction {P : Pool ε → Prop} (turns : List Nat) (hs : P s)
    (hturn : ∀ s s' w, P s → s.Turn count work w s' → P s') :
    P (runTurns count work s turns) :=
  List.foldlRecOn turns _ hs fun s hs w _ => hturn s _ w hs (turn_turn count work s w)

theorem mem_workers_enter_self {old : Phase ε} (hw : s.workers[w]? = some old) (phase : Phase ε) :
    phase ∈ (s.enter w phase).workers :=
  List.mem_set (List.getElem?_eq_some_iff.mp hw).1 phase

/-- The other workers go on as they were. -/
theorem mem_workers_enter_of_ne {old x : Phase ε} (hw : s.workers[w]? = some old) (phase : Phase ε)
    (hx : x ∈ s.workers) (hne : x ≠ old) : x ∈ (s.enter w phase).workers := by
  obtain ⟨v, hv⟩ := List.mem_iff_getElem?.mp hx
  have hwv : w ≠ v := by
    rintro rfl
    rw [hw] at hv
    exact hne (Option.some.inj hv).symm
  exact List.mem_iff_getElem?.mpr ⟨v, (List.getElem?_set_ne hwv).trans hv⟩

/-! ## Modules are handed out in order -/

variable (work s) in
/-- A failure of one of the modules that were taken. -/
def Raised (e : ε) : Prop := ∃ m ∈ s.taken, work m = .error e

variable (count work s) in
/-- What it means for the pool that a worker is in a phase. -/
def Allows : Phase ε → Prop
  | .idle => True
  | .working m => m ∈ s.taken
  | .failing e => count ≤ s.next ∧ s.Raised work e
  | .done => count ≤ s.next

variable (count work s) in
/-- **A pool in order.** The modules that were taken are the first ones, and the counter tells how
many they are, as long as there are more; at the end all of them were taken, unless one has failed.
Every failure was raised by a module that was taken, and is on its way to be reported. -/
structure Orderly : Prop where
  taken_eq : s.taken = List.range s.taken.length
  length_le : s.taken.length ≤ count
  length_eq : s.next < count → s.taken.length = s.next
  exhausted : count ≤ s.next → s.taken.length = count ∨ ∃ e, s.Raised work e
  allows : ∀ phase ∈ s.workers, s.Allows count work phase
  raised : ∀ e, s.failure = some e → s.Raised work e
  pending : ∀ m ∈ s.taken, ∀ e, work m = .error e →
    .working m ∈ s.workers ∨ (∃ e', .failing e' ∈ s.workers) ∨ s.failure.isSome = true

/-- At the start nothing has been taken. -/
theorem orderly_start (count : Nat) (work : Nat → Except ε Unit) (workers : Nat) :
    (start workers : Pool ε).Orderly count work where
  taken_eq := rfl
  length_le := Nat.zero_le count
  length_eq _ := rfl
  exhausted h := .inl (Nat.le_zero.mp h).symm
  allows phase hphase := by
    rw [List.eq_of_mem_replicate hphase]
    trivial
  raised _ h := by cases h
  pending _ h := by cases h

/-- Modules stay taken. -/
theorem Turn.taken_subset (h : s.Turn count work w s') : s.taken ⊆ s'.taken := by
  cases h with
  | take => exact List.subset_append_left _ _
  | _ => exact List.Subset.refl _

/-- **The counter stays at the end** once it is there, although it may be set back to it. -/
theorem Turn.le_next (h : s.Turn count work w s') (hnext : count ≤ s.next) : count ≤ s'.next := by
  cases h with
  | take | leave => exact Nat.le_succ_of_le hnext
  | finish | report | rest => exact hnext
  | fail => exact Nat.le_refl count

theorem Turn.raised (h : s.Turn count work w s') {e : ε} (he : s.Raised work e) :
    s'.Raised work e :=
  he.imp fun _ hm => ⟨h.taken_subset hm.1, hm.2⟩

theorem Turn.allows (h : s.Turn count work w s') {phase : Phase ε}
    (hphase : s.Allows count work phase) : s'.Allows count work phase := by
  cases phase with
  | idle => trivial
  | working m => exact h.taken_subset hphase
  | failing e => exact ⟨h.le_next hphase.1, h.raised hphase.2⟩
  | done => exact h.le_next hphase

/-- The worker whose turn it was is where it may be, and the others still are. -/
theorem Orderly.allows_enter (hs : s.Orderly count work) {t : Pool ε} {phase : Phase ε}
    (h : s.Turn count work w (t.enter w phase)) (hworkers : t.workers = s.workers)
    (hphase : (t.enter w phase).Allows count work phase) :
    ∀ x ∈ (t.enter w phase).workers, (t.enter w phase).Allows count work x := by
  intro x hx
  rcases List.mem_or_eq_of_mem_set hx with hx | rfl
  · exact h.allows (hs.allows x (hworkers ▸ hx))
  · exact hphase

/-- **Every turn keeps a pool in order.** -/
theorem Orderly.turn (hs : s.Orderly count work) (h : s.Turn count work w s') :
    s'.Orderly count work := by
  cases h with
  | take hw hnext =>
    have hlength := hs.length_eq hnext
    have htaken : s.taken ++ [s.next] = List.range (s.taken.length + 1) := by
      rw [List.range_succ, ← hs.taken_eq, hlength]
    have hsize : (s.taken ++ [s.next]).length = s.next + 1 := by
      rw [List.length_append, List.length_singleton, hlength]
    refine
      { taken_eq := htaken.trans (congrArg List.range (by simp [enter]))
        length_le := hsize.symm ▸ hnext
        length_eq := fun _ => hsize
        exhausted := fun hle => .inl (hsize.trans (Nat.le_antisymm hnext hle))
        allows := hs.allows_enter (.take hw hnext) rfl (List.mem_append_right _ (.head _))
        raised := fun e he => (Turn.take hw hnext).raised (hs.raised e he)
        pending := fun m hm e he => ?_ }
    rcases List.mem_append.mp hm with hm | hm
    · refine (hs.pending m hm e he).imp (mem_workers_enter_of_ne hw _ · nofun) (.imp_left ?_)
      exact fun ⟨e', he'⟩ => ⟨e', mem_workers_enter_of_ne hw _ he' nofun⟩
    · obtain rfl := List.mem_singleton.mp hm
      exact .inl (mem_workers_enter_self (s := { s with next := s.next + 1, .. }) hw _)
  | leave hw hnext =>
    refine
      { hs with
        length_eq := fun hlt => absurd (Nat.lt_of_succ_lt hlt) (Nat.not_lt.mpr hnext)
        exhausted := fun _ => hs.exhausted hnext
        allows := hs.allows_enter (.leave hw hnext) rfl (Nat.le_succ_of_le hnext)
        pending := fun m hm e he => ?_ }
    refine (hs.pending m hm e he).imp (mem_workers_enter_of_ne hw _ · nofun) (.imp_left ?_)
    exact fun ⟨e', he'⟩ => ⟨e', mem_workers_enter_of_ne hw _ he' nofun⟩
  | @finish m hw hm =>
    refine
      { hs with
        allows := hs.allows_enter (.finish hw hm) rfl trivial
        pending := fun m' hm' e he => ?_ }
    -- the work that was finished is not the one that failed
    have hne : (.working m' : Phase ε) ≠ .working m := by
      rintro ⟨⟩
      cases hm.symm.trans he
    refine (hs.pending m' hm' e he).imp (mem_workers_enter_of_ne hw _ · hne) (.imp_left ?_)
    exact fun ⟨e', he'⟩ => ⟨e', mem_workers_enter_of_ne hw _ he' nofun⟩
  | @fail m e hw hm =>
    have hraised : s.Raised work e := ⟨m, hs.allows _ (List.mem_of_getElem? hw), hm⟩
    exact
      { hs with
        length_eq := fun hlt => absurd hlt (Nat.lt_irrefl count)
        exhausted := fun _ => .inr ⟨e, hraised⟩
        allows := hs.allows_enter (.fail hw hm) rfl ⟨Nat.le_refl count, hraised⟩
        pending := fun _ _ _ _ => .inr (.inl ⟨e, mem_workers_enter_self hw _⟩) }
  | @report e hw =>
    obtain ⟨hnext, hraised⟩ := hs.allows _ (List.mem_of_getElem? hw)
    have hreport : (s.failure <|> some e) = s.failure.or (some e) := Option.orElse_eq_or
    refine
      { hs with
        allows := hs.allows_enter (.report hw) rfl hnext
        raised := fun e' he' => ?_
        pending := fun _ _ _ _ => .inr (.inr ?_) }
    -- the failure that was reported first stays
    · rcases Option.or_eq_some_iff.mp (hreport.symm.trans he') with he' | ⟨-, he'⟩
      · exact hs.raised e' he'
      · exact Option.some.inj he' ▸ hraised
    · show (s.failure <|> some e).isSome = true
      rw [hreport, Option.isSome_or, Option.isSome_some, Bool.or_true]
  | rest => exact hs

/-- **Every run keeps a pool in order.** -/
theorem orderly_runTurns (count : Nat) (work : Nat → Except ε Unit) (workers : Nat)
    (turns : List Nat) : (runTurns count work (start workers) turns).Orderly count work :=
  runTurns_induction turns (orderly_start count work workers) fun _ _ _ => Orderly.turn

/-! ## Who took what -/

variable (count) in
/-- The worker and the module, if a worker takes one in its turn. -/
def taking? (s : Pool ε) (w : Nat) : Option (Nat × Nat) :=
  match s.workers[w]? with
  | some .idle => if s.next < count then some (w, s.next) else none
  | _ => none

variable (count work) in
/-- Which workers take which modules in some turns. -/
def takings : Pool ε → List Nat → List (Nat × Nat)
  | _, [] => []
  | s, w :: turns => (s.taking? count w).toList ++ takings (s.turn count work w) turns

@[simp] theorem taken_turn (count : Nat) (work : Nat → Except ε Unit) (s : Pool ε) (w : Nat) :
    (s.turn count work w).taken = s.taken ++ (s.taking? count w).toList.map (·.2) := by
  unfold turn taking?
  cases s.workers[w]? with
  | none => simp
  | some phase =>
    cases phase with
    | idle =>
      dsimp only [take]
      split <;> simp [enter]
    | working m =>
      dsimp only
      split <;> simp [enter]
    | failing e => simp [enter]
    | done => simp

/-- The modules that were taken are those that some worker took. -/
theorem taken_runTurns (count : Nat) (work : Nat → Except ε Unit) (s : Pool ε) (turns : List Nat) :
    (runTurns count work s turns).taken = s.taken ++ (takings count work s turns).map (·.2) := by
  induction turns generalizing s with
  | nil => exact (List.append_nil _).symm
  | cons w turns ih =>
    show (runTurns count work (s.turn count work w) turns).taken = _
    rw [ih, taken_turn, takings, List.map_append, List.append_assoc]

/-! ## The end of the work -/

theorem isFinal_iff : s.isFinal = true ↔ ∀ phase ∈ s.workers, phase = .done := by
  rw [isFinal, List.all_eq_true]
  refine forall₂_congr fun phase _ => ?_
  cases phase <;> simp

variable (count s w) in
/-- How many turns of its own a worker still needs at most: two for each module that is left, which
it may get, and those that its phase asks for. -/
def turnsLeft : Nat := 2 * (count - s.next) + (s.workers[w]?.map Phase.turns).getD 0

/-- **A worker advances** in each turn until it is done: either it gives up some of the turns left
to it, or it has none left to give up. -/
theorem Turn.advance (h : s.Turn count work w s') :
    (s' = s ∧ (s.workers[w]? = some .done ∨ s.workers[w]? = none)) ∨
      ∃ old phase, s.workers[w]? = some old ∧ old ≠ .done ∧ s'.workers = s.workers.set w phase ∧
        count - s'.next ≤ count - s.next ∧
        2 * (count - s'.next) + phase.turns < 2 * (count - s.next) + old.turns := by
  cases h with
  | rest hw => exact .inl ⟨rfl, hw⟩
  | take hw | leave hw | finish hw | fail hw | report hw =>
    refine .inr ⟨_, _, hw, nofun, rfl, ?_, ?_⟩ <;> dsimp only [enter, Phase.turns] <;> omega

theorem Turn.length_workers (h : s.Turn count work w s') :
    s'.workers.length = s.workers.length := by
  rcases h.advance with ⟨rfl, -⟩ | ⟨old, phase, -, -, hworkers, -⟩
  · rfl
  · rw [hworkers, List.length_set]

@[simp] theorem length_workers_runTurns (count : Nat) (work : Nat → Except ε Unit) (workers : Nat)
    (turns : List Nat) : (runTurns count work (start workers) turns).workers.length = workers :=
  runTurns_induction (P := fun t : Pool ε => t.workers.length = workers) turns
    List.length_replicate fun _ _ _ ht hturn => hturn.length_workers.trans ht

/-- A worker that is done stays so. -/
theorem Turn.done (h : s.Turn count work w s') {v : Nat} (hv : s.workers[v]? = some .done) :
    s'.workers[v]? = some .done := by
  rcases h.advance with ⟨rfl, -⟩ | ⟨old, phase, hw, hold, hworkers, -⟩
  · exact hv
  · have hne : w ≠ v := by
      rintro rfl
      exact hold (Option.some.inj (hw.symm.trans hv))
    rw [hworkers, List.getElem?_set_ne hne, hv]

/-- **A turn of a worker brings it nearer to its end**, and the turns of the others do not take it
away from there. -/
theorem Turn.done_or_turnsLeft_le (h : s.Turn count work w s') {v : Nat}
    (hv : v < s.workers.length) : s.workers[v]? = some .done ∨
      s'.turnsLeft count v + [w].count v ≤ s.turnsLeft count v := by
  rcases h.advance with ⟨rfl, hw⟩ | ⟨old, phase, hw, -, hworkers, hnext, hlt⟩
  · by_cases hwv : w = v
    · subst hwv
      rw [List.getElem?_eq_getElem hv] at hw ⊢
      exact .inl (hw.resolve_right nofun)
    · rw [List.count_singleton, beq_eq_false_iff_ne.mpr hwv]
      exact .inr (Nat.le_refl _)
  · right
    by_cases hwv : w = v
    · subst hwv
      rw [turnsLeft, turnsLeft, hworkers, hw, List.getElem?_set_self hv, List.count_singleton_self]
      exact hlt
    · rw [turnsLeft, turnsLeft, hworkers, List.getElem?_set_ne hwv, List.count_singleton,
        beq_eq_false_iff_ne.mpr hwv, if_neg Bool.false_ne_true]
      omega

variable (count work) in
/-- A worker is done once it has had as many turns as it needs. -/
theorem done_or_turnsLeft_le (turns : List Nat) {v : Nat} (hv : v < s.workers.length) :
    (runTurns count work s turns).workers[v]? = some .done ∨
      (runTurns count work s turns).turnsLeft count v + turns.count v ≤ s.turnsLeft count v := by
  induction turns generalizing s with
  | nil => exact .inr (Nat.le_refl _)
  | cons w turns ih =>
    have hturn := turn_turn count work s w
    show (runTurns count work (s.turn count work w) turns).workers[v]? = _ ∨
      (runTurns count work (s.turn count work w) turns).turnsLeft count v + _ ≤ _
    rcases hturn.done_or_turnsLeft_le hv with hdone | hle
    · left
      exact runTurns_induction (P := fun t => t.workers[v]? = some .done) turns (hturn.done hdone)
        fun _ _ _ hdone h => h.done hdone
    · refine (ih (hturn.length_workers ▸ hv)).imp_right fun hrest => ?_
      rw [← List.singleton_append, List.count_append]
      omega

/-- **The work ends**, in whatever order the turns come, if every worker gets two of them for each
module and one more. -/
theorem isFinal_runTurns {workers : Nat} {turns : List Nat}
    (h : ∀ w < workers, 2 * count + 1 ≤ turns.count w) :
    (runTurns count work (start workers) turns).isFinal = true := by
  have hlength := length_workers_runTurns count work workers turns
  refine isFinal_iff.mpr fun phase hphase => ?_
  obtain ⟨w, hw⟩ := List.mem_iff_getElem?.mp hphase
  have hlt : w < workers := hlength ▸ (List.getElem?_eq_some_iff.mp hw).1
  have hstart : (start workers : Pool ε).workers[w]? = some .idle :=
    List.getElem?_replicate_of_lt hlt
  have hw' := (List.getElem?_eq_some_iff.mp hstart).1
  rcases done_or_turnsLeft_le count work turns hw' with hdone | hle
  · exact Option.some.inj (hw.symm.trans hdone)
  -- no turn is left, and only a worker that is done needs none
  · have hturns := h w hlt
    rw [turnsLeft, turnsLeft, hstart, hw] at hle
    dsimp only [start, Option.map_some, Option.getD_some] at hle
    cases phase with
    | done => rfl
    | idle | working | failing =>
      dsimp only [Phase.turns] at hle
      omega

end Pool

/-! ## Visits -/

variable (count work) in
/-- **Settled visits.** Modules are visited in order and none twice. Without a failure all of them
were visited and none has failed, and a failure is that of a module that was visited. -/
structure Visit.Settled (v : Visit ε) : Prop where
  visited_eq : v.visited = List.range v.visited.length
  length_le : v.visited.length ≤ count
  ok : v.failure = none → v.visited.length = count ∧ ∀ m ∈ v.visited, work m = .ok ()
  failed : ∀ e, v.failure = some e → ∃ m ∈ v.visited, work m = .error e

theorem eq_ok_of_forall_ne_error {m : Nat} (h : ∀ e, work m ≠ .error e) : work m = .ok () := by
  cases hm : work m with
  | ok => rfl
  | error e => exact absurd hm (h e)

/-- **What a settled visit comes to**: every module, or the failure of one of them. -/
theorem Visit.Settled.outcome {v : Visit ε} (h : v.Settled count work) :
    ((∀ m ∈ v.visited, work m = .ok ()) → v.visited = List.range count ∧ v.failure = none) ∧
      ((∃ m ∈ v.visited, ∃ e, work m = .error e) →
        ∃ m ∈ v.visited, ∃ e, work m = .error e ∧ v.failure = some e) := by
  constructor
  · intro hok
    have hnone : v.failure = none := by
      refine Option.eq_none_iff_forall_ne_some.mpr fun e he => ?_
      obtain ⟨m, hm, hfail⟩ := h.failed e he
      cases (hok m hm).symm.trans hfail
    exact ⟨(h.ok hnone).1 ▸ h.visited_eq, hnone⟩
  · rintro ⟨m, hm, e, hfail⟩
    cases hfailure : v.failure with
    | none => cases ((h.ok hfailure).2 m hm).symm.trans hfail
    | some e' =>
      obtain ⟨m', hm', hfail'⟩ := h.failed e' hfailure
      exact ⟨m', hm', e', hfail', rfl⟩

/-- **At the end of the work of several workers** the visit is settled. -/
theorem Pool.Orderly.settled {s : Pool ε} (hs : s.Orderly count work) (hfinal : s.isFinal = true)
    (hworkers : s.workers.length = 0 → count = 0) :
    Visit.Settled count work ⟨s.taken, s.failure⟩ where
  visited_eq := hs.taken_eq
  length_le := hs.length_le
  failed := hs.raised
  ok hnone := by
    have hdone := Pool.isFinal_iff.mp hfinal
    -- a failing index keeps a worker busy or raising until the failure is recorded; here all
    -- workers are done and none was recorded
    have hok : ∀ m ∈ s.taken, work m = .ok () := by
      refine fun m hm => eq_ok_of_forall_ne_error fun e he => ?_
      rcases hs.pending m hm e he with hw | ⟨e', hw⟩ | hsome
      · cases hdone _ hw
      · cases hdone _ hw
      · rw [show s.failure = none from hnone] at hsome
        cases hsome
    refine ⟨?_, hok⟩
    cases hlist : s.workers with
    | nil =>
      have hzero := hworkers (by rw [hlist, List.length_nil])
      exact Nat.le_antisymm hs.length_le (hzero ▸ Nat.zero_le _)
    | cons phase rest =>
      have hmem : phase ∈ s.workers := hlist ▸ List.mem_cons_self
      have hend : count ≤ s.next := by
        have hallows := hs.allows phase hmem
        rwa [hdone phase hmem] at hallows
      refine (hs.exhausted hend).resolve_right ?_
      rintro ⟨e, m, hm, he⟩
      cases (hok m hm).symm.trans he

/-! ### In order -/

/-- If nothing fails in the first list, the visit goes on in the second. -/
theorem visitInOrder_append_of_none {l l' : List Nat} (h : (visitInOrder work l).failure = none) :
    visitInOrder work (l ++ l') =
      ⟨l ++ (visitInOrder work l').visited, (visitInOrder work l').failure⟩ := by
  induction l with
  | nil => rfl
  | cons m l ih =>
    rw [List.cons_append, visitInOrder]
    rw [visitInOrder] at h
    cases hm : work m with
    | error e =>
      rw [hm] at h
      cases h
    | ok =>
      rw [hm] at h
      dsimp only at h ⊢
      rw [ih h]
      rfl

/-- Otherwise it ends in the first. -/
theorem visitInOrder_append_of_some {l l' : List Nat} {e : ε}
    (h : (visitInOrder work l).failure = some e) :
    visitInOrder work (l ++ l') = visitInOrder work l := by
  induction l with
  | nil => cases h
  | cons m l ih =>
    rw [List.cons_append, visitInOrder, visitInOrder]
    rw [visitInOrder] at h
    cases hm : work m with
    | error e => rfl
    | ok =>
      rw [hm] at h
      dsimp only at h ⊢
      rw [ih h]

variable (work) in
/-- Whether the work on a module fails. -/
def fails (m : Nat) : Bool := !(work m).isOk

/-- **A visit in order** goes up to the first module that fails, and includes it. -/
theorem visited_visitInOrder (l : List Nat) :
    (visitInOrder work l).visited = l.take (l.findIdx (fails work) + 1) := by
  induction l with
  | nil => rfl
  | cons m l ih =>
    rw [visitInOrder, List.findIdx_cons, List.take_succ_cons, fails]
    cases hm : work m with
    | error e => rfl
    | ok => exact congrArg (m :: ·) ih

/-- The failure of a visit in order is that of the first that fails. -/
theorem failure_visitInOrder_eq_some_iff {l : List Nat} {e : ε} :
    (visitInOrder work l).failure = some e ↔
      ∃ m, l.find? (fails work) = some m ∧ work m = .error e := by
  induction l with
  | nil => simp [visitInOrder]
  | cons m l ih =>
    rw [visitInOrder, List.find?_cons, fails]
    cases hm : work m with
    | error e' => simp [Except.isOk, Except.toBool, hm]
    | ok => exact ih

namespace Pool

variable {s s' : Pool ε} {w : Nat}

variable (work s) in
/-- What a worker on its own has done so far: a visit in order of the modules it has taken, except
for the work on the last one while it lasts, and for the report of a failure. -/
def Visits : Phase ε → Prop
  | .idle => s.failure = none ∧ visitInOrder work s.taken = ⟨s.taken, none⟩
  | .working m => s.failure = none ∧
    ∃ front, s.taken = front ++ [m] ∧ visitInOrder work front = ⟨front, none⟩
  | .failing e => s.failure = none ∧ visitInOrder work s.taken = ⟨s.taken, some e⟩
  | .done => visitInOrder work s.taken = ⟨s.taken, s.failure⟩

variable (work s) in
/-- **A worker on its own.** -/
def Alone : Prop := ∃ phase, s.workers = [phase] ∧ s.Visits work phase

theorem visitInOrder_append_singleton {front : List Nat}
    (h : visitInOrder work front = ⟨front, none⟩) (m : Nat) :
    visitInOrder work (front ++ [m]) = ⟨front ++ [m], (visitInOrder work [m]).failure⟩ := by
  rw [visitInOrder_append_of_none (by rw [h])]
  dsimp only [visitInOrder]
  cases work m <;> rfl

theorem eq_of_getElem?_singleton {α : Type} {a b : α} {n : Nat} (h : [a][n]? = some b) :
    n = 0 ∧ a = b := by
  cases n with
  | zero => exact ⟨rfl, Option.some.inj h⟩
  | succ n => cases h

theorem workers_enter_zero {phase : Phase ε} (h : s.workers = [phase]) (phase' : Phase ε) :
    (s.enter 0 phase').workers = [phase'] := by
  show s.workers.set 0 phase' = _
  rw [h, List.set_cons_zero]

/-- Every turn of a worker on its own goes on with its visit. -/
theorem Alone.turn (hs : s.Alone work) (h : s.Turn count work w s') : s'.Alone work := by
  obtain ⟨phase, hworkers, hvisits⟩ := hs
  -- the turn is the worker's own, and what it does depends on its phase
  have hown : ∀ {phase'}, s.workers[w]? = some phase' → w = 0 ∧ phase = phase' := fun hw =>
    eq_of_getElem?_singleton (hworkers ▸ hw)
  cases h with
  | rest => exact ⟨phase, hworkers, hvisits⟩
  | take hw =>
    obtain ⟨rfl, rfl⟩ := hown hw
    exact ⟨.working s.next, workers_enter_zero hworkers _, hvisits.1, s.taken, rfl, hvisits.2⟩
  | leave hw =>
    obtain ⟨rfl, rfl⟩ := hown hw
    refine ⟨.done, workers_enter_zero hworkers _, ?_⟩
    show visitInOrder work s.taken = ⟨s.taken, s.failure⟩
    rw [hvisits.2, hvisits.1]
  | @finish m hw hm =>
    obtain ⟨rfl, rfl⟩ := hown hw
    obtain ⟨hnone, front, htaken, hfront⟩ := hvisits
    refine ⟨.idle, workers_enter_zero hworkers _, hnone, ?_⟩
    show visitInOrder work s.taken = ⟨s.taken, none⟩
    rw [htaken, visitInOrder_append_singleton hfront, visitInOrder, hm]
    rfl
  | @fail m e hw hm =>
    obtain ⟨rfl, rfl⟩ := hown hw
    obtain ⟨hnone, front, htaken, hfront⟩ := hvisits
    refine ⟨.failing e, workers_enter_zero hworkers _, hnone, ?_⟩
    show visitInOrder work s.taken = ⟨s.taken, some e⟩
    rw [htaken, visitInOrder_append_singleton hfront, visitInOrder, hm]
  | @report e hw =>
    obtain ⟨rfl, rfl⟩ := hown hw
    refine ⟨.done, workers_enter_zero hworkers _, ?_⟩
    show visitInOrder work s.taken = ⟨s.taken, s.failure <|> some e⟩
    rw [hvisits.2, hvisits.1]
    rfl

theorem alone_runTurns (count : Nat) (work : Nat → Except ε Unit) (turns : List Nat) :
    (runTurns count work (start 1) turns).Alone work :=
  runTurns_induction turns ⟨.idle, rfl, rfl, rfl⟩ fun _ _ _ => Alone.turn

/-- None of the modules that a worker on its own has taken comes after one that failed. -/
theorem Visits.visited_eq {phase : Phase ε} (h : s.Visits work phase) :
    (visitInOrder work s.taken).visited = s.taken := by
  cases phase with
  | idle | failing => rw [h.2]
  | done => rw [show visitInOrder work s.taken = _ from h]
  | working m =>
    obtain ⟨-, front, htaken, hfront⟩ := h
    rw [htaken, visitInOrder_append_singleton hfront]

theorem Orderly.exists_range_eq (h : s.Orderly count work) :
    ∃ rest, List.range count = s.taken ++ rest := by
  obtain ⟨k, hk⟩ := Nat.exists_eq_add_of_le h.length_le
  exact ⟨_, by rw [hk, List.range_add, ← h.taken_eq]⟩

/-- **A worker on its own visits the modules in order.** What it has taken so far is the beginning
of that visit, and at the end it is the whole of it. -/
theorem Alone.visit (hs : s.Alone work) (h : s.Orderly count work) :
    s.taken <+: (visitInOrder work (List.range count)).visited ∧
      (s.isFinal = true → ⟨s.taken, s.failure⟩ = visitInOrder work (List.range count)) := by
  obtain ⟨phase, hworkers, hvisits⟩ := hs
  -- the indices taken are the first of the range; the visit of the whole range goes on after them
  -- unless one of them failed
  obtain ⟨rest, hrest⟩ := h.exists_range_eq
  constructor
  · rw [hrest]
    cases hfailure : (visitInOrder work s.taken).failure with
    | none =>
      rw [visitInOrder_append_of_none hfailure]
      exact List.prefix_append _ _
    | some e =>
      rw [visitInOrder_append_of_some hfailure]
      exact ⟨[], (List.append_nil _).trans hvisits.visited_eq.symm⟩
  · intro hfinal
    have hsettled := h.settled hfinal (by rw [hworkers]; nofun)
    obtain rfl : phase = .done := isFinal_iff.mp hfinal phase (hworkers ▸ List.mem_singleton_self _)
    cases hfailure : s.failure with
    | none =>
      have htaken := hsettled.visited_eq
      dsimp only at htaken
      rw [(hsettled.ok hfailure).1] at htaken
      rw [← htaken, ← hfailure]
      exact hvisits.symm
    | some e =>
      rw [hrest, visitInOrder_append_of_some (e := e), ← hfailure]
      · exact hvisits.symm
      · rw [show visitInOrder work s.taken = _ from hvisits]
        exact hfailure

end Pool

/-! ## Every module once -/

theorem le_count_flatten_replicate {w : Nat} {l : List Nat} (h : w ∈ l) (n : Nat) :
    n ≤ (List.replicate n l).flatten.count w := by
  induction n with
  | zero => exact Nat.zero_le _
  | succ n ih =>
    have hpos := List.count_pos_iff.mpr h
    rw [List.replicate_succ, List.flatten_cons, List.count_append]
    omega

/-- **Every visit is settled**, whether one worker makes it or several. -/
theorem settled_visit (threads count : Nat) (work : Nat → Except ε Unit) :
    (visit threads count work).Settled count work := by
  unfold visit
  split
  · -- a pool of one worker visits the modules in order as well
    have hfinal : (Pool.runTurns count work (.start 1) (List.replicate (2 * count + 1) 0)).isFinal =
        true := Pool.isFinal_runTurns fun w hw => by
      obtain rfl : w = 0 := by omega
      exact Nat.le_of_eq List.count_replicate_self.symm
    have horderly := Pool.orderly_runTurns count work 1 (List.replicate (2 * count + 1) 0)
    have halone := Pool.alone_runTurns count work (List.replicate (2 * count + 1) 0)
    rw [← (halone.visit horderly).2 hfinal]
    obtain ⟨phase, hworkers, -⟩ := halone
    exact horderly.settled hfinal (by rw [hworkers]; nofun)
  · rename_i hmany
    refine (Pool.orderly_runTurns ..).settled (Pool.isFinal_runTurns fun w hw => ?_) fun hzero => ?_
    · have hcount := le_count_flatten_replicate (List.mem_range.mpr hw) (2 * count + 3)
      omega
    · rw [Pool.length_workers_runTurns] at hzero
      omega

/-- **Modules are shared out once**, however the turns come and however many workers there are, if
there are any where there is something to do. No module is taken twice, and so none by two workers.
When all workers are done and no work has failed, each module was taken and no failure is reported;
if some work has failed, the failure of one such module is reported. A worker on its own goes
through the modules in order, up to the first one that fails. -/
theorem modules_shared_out_once (workers count : Nat) (work : Nat → Except ε Unit)
    (turns : List Nat) (hworkers : workers = 0 → count = 0) :
    let s := Pool.runTurns count work (.start workers) turns
    let takings := Pool.takings count work (.start workers) turns
    (s.taken = takings.map (·.2) ∧ s.taken.Nodup ∧ (∀ m ∈ s.taken, m < count) ∧
      ∀ v w m, (v, m) ∈ takings → (w, m) ∈ takings → v = w) ∧
    (s.isFinal = true →
      ((∀ m ∈ s.taken, work m = .ok ()) → s.taken = List.range count ∧ s.failure = none) ∧
      ((∃ m ∈ s.taken, ∃ e, work m = .error e) →
        ∃ m ∈ s.taken, ∃ e, work m = .error e ∧ s.failure = some e)) ∧
    (workers = 1 →
      s.taken <+: (List.range count).take ((List.range count).findIdx (fails work) + 1) ∧
      (s.isFinal = true →
        s.taken = (List.range count).take ((List.range count).findIdx (fails work) + 1) ∧
        ∀ e, s.failure = some e ↔
          ∃ m, (List.range count).find? (fails work) = some m ∧ work m = .error e)) ∧
    ∀ threads, (visit threads count work).Settled count work := by
  intro s takings
  have horderly : s.Orderly count work := Pool.orderly_runTurns count work workers turns
  have htakings : s.taken = takings.map (·.2) := Pool.taken_runTurns count work _ turns
  have hnodup : s.taken.Nodup := horderly.taken_eq ▸ List.nodup_range
  refine ⟨⟨htakings, hnodup, fun m hm => ?_, fun v w m hv hw => ?_⟩, fun hfinal => ?_, ?_,
    fun threads => settled_visit threads count work⟩
  · rw [horderly.taken_eq, List.mem_range] at hm
    exact Nat.lt_of_lt_of_le hm horderly.length_le
  · rw [htakings] at hnodup
    exact congrArg Prod.fst (List.inj_on_of_nodup_map hnodup hv hw rfl)
  · exact (horderly.settled hfinal fun hzero => hworkers
      ((Pool.length_workers_runTurns count work workers turns).symm.trans hzero)).outcome
  · rintro rfl
    obtain ⟨hbegins, hwhole⟩ := (Pool.alone_runTurns count work turns).visit horderly
    rw [← visited_visitInOrder]
    refine ⟨hbegins, fun hfinal => ⟨congrArg Visit.visited (hwhole hfinal), fun e => ?_⟩⟩
    rw [← failure_visitInOrder_eq_some_iff, ← hwhole hfinal]

/-- Three workers, two modules, and both fail. The third worker finds no module and counts beyond
the end; the failure of the second worker sets the counter back to it, but no module is handed out
again, and the failure of the first worker is reported before that of the second. -/
theorem countedBeyond_shared_out_once :
    let work : Nat → Except Nat Unit := fun m => .error (10 + m)
    let s := Pool.runTurns 2 work (.start 3) [0, 1, 2, 1, 2, 0, 0, 1]
    (Pool.runTurns 2 work (.start 3) [0, 1, 2]).next = 3 ∧
      (Pool.runTurns 2 work (.start 3) [0, 1, 2, 1]).next = 2 ∧
      s.isFinal = true ∧ s.taken = [0, 1] ∧ s.failure = some 10 ∧
      Pool.takings 2 work (.start 3) [0, 1, 2, 1, 2, 0, 0, 1] = [(0, 0), (1, 1)] ∧
      ∃ m ∈ s.taken, ∃ e, work m = .error e ∧ s.failure = some e := by
  intro work s
  have hfinal : s.isFinal = true := by decide
  obtain ⟨-, hend, -⟩ := modules_shared_out_once 3 2 work [0, 1, 2, 1, 2, 0, 0, 1] (by decide)
  exact ⟨by decide, by decide, hfinal, by decide, by decide, by decide,
    (hend hfinal).2 ⟨0, by decide, 10, rfl⟩⟩

end ErrorReturns.Schedule
