import ErrorReturns.Proofs.Learning.Merging
import Mathlib.Data.Prod.Lex
import Mathlib.Order.Bounds.Basic

/-!
# The best match wins

A condition may be offered many matches, and each is compared with the one in force only. The
comparison asks three questions that overlap: are there fewer branches, is more in common with no
more branches, or is nothing worse. Together they ask whether the candidate is at least as good in
the lexicographic order by branches, common part and length (`Match.replaces_iff`). This order is
total, so that the match in force has at every time the least rank of all that were offered, and
that rank does not depend on the order of the offers (`Match.inForce_best_in_any_order`).

A match as good as the one in force replaces it. Which of several best matches is in force in the
end does therefore depend on the order: it is the last one.

While the paths of a function are compared, what they offer to a condition does not depend on what
has been decided so far, and the decision is what is in force after all offers
(`Context.get?_compareAll`).
-/

namespace ErrorReturns

open Checked (bind_eq_ok_iff ok_bind)

namespace Match

/-! ## Ranks -/

/-- What is compared of a match: its branches, its common part and its length. A condition without a
match counts as one with the worst values there are. -/
def grade : Option Match → UInt16 × UInt16 × UInt16
  | some m => (m.sum, m.common, m.length)
  | none => (65535, 0, 65535)

/-- **The rank of a match**, the less the better: fewer branches come first, then a longer common
part, then a shorter path. -/
def rank (m : Option Match) : ℕ ×ₗ ℕᵒᵈ ×ₗ ℕ :=
  toLex ((grade m).1.toNat, toLex (OrderDual.toDual (grade m).2.1.toNat, (grade m).2.2.toNat))

theorem rank_le_iff {a b : Option Match} : rank a ≤ rank b ↔
    (grade a).1 < (grade b).1 ∨ (grade a).1 = (grade b).1 ∧
      ((grade b).2.1 < (grade a).2.1 ∨ (grade a).2.1 = (grade b).2.1 ∧
        (grade a).2.2 ≤ (grade b).2.2) := by
  rw [rank, rank, Prod.Lex.toLex_le_toLex, Prod.Lex.toLex_le_toLex]
  simp only [OrderDual.toDual_lt_toDual, OrderDual.toDual_inj, UInt16.lt_iff_toNat_lt,
    UInt16.le_iff_toNat_le, UInt16.toNat_inj]

theorem rank_eq_iff {a b : Option Match} : rank a = rank b ↔ grade a = grade b := by
  refine ⟨fun h => ?_, fun h => by rw [rank, rank, h]⟩
  have hle := rank_le_iff.mp h.le
  have hge := rank_le_iff.mp h.ge
  simp only [UInt16.lt_iff_toNat_lt, UInt16.le_iff_toNat_le, ← UInt16.toNat_inj] at hle hge
  refine Prod.ext ?_ (Prod.ext ?_ ?_) <;> rw [← UInt16.toNat_inj] <;> omega

/-- No match is worse than none. -/
theorem rank_le_none (m : Match) : rank (some m) ≤ rank none := by
  have hsum := m.sum.toNat_lt
  have hlength := m.length.toNat_lt
  rw [rank_le_iff]
  simp only [grade, UInt16.lt_iff_toNat_lt, UInt16.le_iff_toNat_le, ← UInt16.toNat_inj]
  simp only [UInt16.reduceToNat]
  omega

/-- **A match replaces what is no better.** -/
theorem replaces_iff {candidate : Match} {current : Option Match} :
    candidate.replaces current = true ↔ rank (some candidate) ≤ rank current := by
  rw [rank_le_iff]
  cases current <;>
    simp only [replaces, grade, Bool.or_eq_true, Bool.and_eq_true, decide_eq_true_eq,
      UInt16.lt_iff_toNat_lt, UInt16.le_iff_toNat_le, ← UInt16.toNat_inj] <;>
    omega

/-! ## Offers -/

/-- The match in force after a candidate has been offered. -/
def keep (current : Option Match) (candidate : Match) : Option Match :=
  if candidate.replaces current then some candidate else current

/-- **The match in force** after candidates have been offered one after another. -/
def inForce (current : Option Match) (offers : List Match) : Option Match :=
  offers.foldl keep current

@[simp] theorem rank_keep (current : Option Match) (candidate : Match) :
    rank (keep current candidate) = min (rank current) (rank (some candidate)) := by
  unfold keep
  split
  case isTrue h => exact (min_eq_right (replaces_iff.mp h)).symm
  case isFalse h => exact (min_eq_left (le_of_not_ge (mt replaces_iff.mpr h))).symm

theorem inForce_concat (current : Option Match) (offers : List Match) (candidate : Match) :
    inForce current (offers ++ [candidate]) = keep (inForce current offers) candidate :=
  List.foldl_concat keep current candidate offers

@[simp] theorem inForce_append (current : Option Match) (offers offers' : List Match) :
    inForce current (offers ++ offers') = inForce (inForce current offers) offers' :=
  List.foldl_append

/-- What is in force was there before or has been offered. -/
theorem inForce_mem (current : Option Match) (offers : List Match) :
    inForce current offers = current ∨ ∃ m ∈ offers, inForce current offers = some m := by
  induction offers using List.reverseRecOn with
  | nil => exact Or.inl rfl
  | append_singleton offers candidate ih =>
    rw [inForce_concat, keep]
    split
    · exact Or.inr ⟨candidate, by simp, rfl⟩
    · exact ih.imp_right fun ⟨m, hm, h⟩ => ⟨m, List.mem_append_left _ hm, h⟩

/-- What is in force is at least as good as everything so far. -/
theorem rank_inForce_le (current : Option Match) (offers : List Match) :
    rank (inForce current offers) ≤ rank current ∧
      ∀ m ∈ offers, rank (inForce current offers) ≤ rank (some m) := by
  induction offers using List.reverseRecOn with
  | nil => exact ⟨le_rfl, nofun⟩
  | append_singleton offers candidate ih =>
    rw [inForce_concat, rank_keep]
    refine ⟨(min_le_left _ _).trans ih.1, fun m hm => ?_⟩
    rcases List.mem_append.mp hm with hm | hm
    · exact (min_le_left _ _).trans (ih.2 m hm)
    · exact List.mem_singleton.mp hm ▸ min_le_right _ _

/-- **The rank in force is the least** of all. -/
theorem isLeast_rank_inForce (current : Option Match) (offers : List Match) :
    IsLeast (insert (rank current) {r | ∃ m ∈ offers, rank (some m) = r})
      (rank (inForce current offers)) := by
  obtain ⟨hcurrent, hoffers⟩ := rank_inForce_le current offers
  constructor
  · rcases inForce_mem current offers with h | ⟨m, hm, h⟩
    · rw [h]
      exact Set.mem_insert _ _
    · exact Set.mem_insert_of_mem _ ⟨m, hm, congrArg rank h.symm⟩
  · rintro r (rfl | ⟨m, hm, rfl⟩)
    · exact hcurrent
    · exact hoffers m hm

/-! ## The last of the best -/

/-- **The last of the best** of some matches: none before it is better, and all after it are worse.
-/
def IsLastBest (m : Match) (ms : List Match) : Prop :=
  ∃ before after, ms = before ++ m :: after ∧
    (∀ x ∈ before, rank (some m) ≤ rank (some x)) ∧ ∀ x ∈ after, rank (some m) < rank (some x)

/-- One more match is the last of the best if it is no worse than any other. -/
theorem isLastBest_concat_self {m : Match} {ms : List Match}
    (h : ∀ x ∈ ms, rank (some m) ≤ rank (some x)) : IsLastBest m (ms ++ [m]) :=
  ⟨ms, [], rfl, h, nofun⟩

/-- One more match that is worse changes nothing. -/
theorem IsLastBest.concat {m x : Match} {ms : List Match} (h : m.IsLastBest ms)
    (hx : rank (some m) < rank (some x)) : m.IsLastBest (ms ++ [x]) := by
  obtain ⟨before, after, rfl, hbefore, hafter⟩ := h
  refine ⟨before, after ++ [x], by simp, hbefore, fun y hy => ?_⟩
  rcases List.mem_append.mp hy with hy | hy
  · exact hafter y hy
  · exact List.mem_singleton.mp hy ▸ hx

/-- **The match in force is the last of the best.** What was in force at first counts as offered
before all others. -/
theorem isLastBest_of_inForce {current : Option Match} {offers : List Match} {m : Match}
    (h : inForce current offers = some m) : m.IsLastBest (current.toList ++ offers) := by
  induction offers using List.reverseRecOn with
  | nil => exact (show current = some m from h) ▸ ⟨[], [], rfl, nofun, nofun⟩
  | append_singleton offers candidate ih =>
    rw [inForce_concat, keep] at h
    rw [← List.append_assoc]
    split at h
    case isTrue hreplaces =>
      obtain rfl := Option.some.inj h
      refine isLastBest_concat_self fun x hx => (replaces_iff.mp hreplaces).trans ?_
      obtain ⟨hcurrent, hoffers⟩ := rank_inForce_le current offers
      rcases List.mem_append.mp hx with hx | hx
      · exact (Option.mem_toList.mp hx : current = some x) ▸ hcurrent
      · exact hoffers x hx
    case isFalse hkept =>
      refine (ih h).concat ?_
      rw [← h]
      exact lt_of_not_ge (mt replaces_iff.mpr hkept)

/-- Nothing is in force only as long as nothing has been offered. -/
@[simp] theorem inForce_eq_none_iff {current : Option Match} {offers : List Match} :
    inForce current offers = none ↔ current = none ∧ offers = [] := by
  constructor
  · intro h
    rcases List.eq_nil_or_concat offers with rfl | ⟨offers, candidate, rfl⟩
    · exact ⟨h, rfl⟩
    · rw [List.concat_eq_append, inForce_concat, keep] at h
      split at h
      · cases h
      case isFalse hkept =>
        rw [h] at hkept
        exact absurd (replaces_iff.mpr (rank_le_none candidate)) hkept
  · rintro ⟨rfl, rfl⟩
    rfl

end Match

namespace Context

/-! ## What paths offer -/

variable (c : Context)

/-- What a path offers to a condition: one match, if it leaves the condition and that is a
comparison. -/
def offered (id : CheckId) (common sum : Nat) (s : SummarizedPath) : List Match :=
  if s.path.reason = some id ∧ (c.condition? id).any (·.isComparison) then
    [⟨s.summary.entry, common.toUInt16, s.path.blocks.length.toUInt16, sum.toUInt16⟩]
  else []

/-- What two paths offer to a condition: nothing, unless they leave different conditions and are
alike. -/
def offeredByPair (id : CheckId) (a b : SummarizedPath) : Checked (List Match) := do
  if a.path.reason = b.path.reason then return []
  let matcher : EffectMatcher := ⟨c.program, c.graph, c.mayAlias⟩
  let found ← matcher.common a.summary.effects b.summary.effects
  if found.2 < matchRatio then return []
  let sum := a.summary.branchCount + b.summary.branchCount
  return c.offered id found.1 sum a ++ c.offered id found.1 sum b

/-- **What is offered to a condition** while every two paths of a list are compared, in order. It
does not depend on what is in force. -/
def offersFor (id : CheckId) : List SummarizedPath → Checked (List Match)
  | [] => return []
  | s :: rest => do
    let offers ← rest.mapM (c.offeredByPair id s)
    return offers.flatten ++ (← offersFor id rest)

variable {c} {d d' : Decisions}

/-- An offer of a path is kept if it is for the condition and good enough. -/
theorem get?_offer (id : CheckId) (common sum : Nat) (d : Decisions) (s : SummarizedPath) :
    (c.offer common sum d s).matched.get? id =
      Match.inForce (d.matched.get? id) (c.offered id common sum s) := by
  unfold offered
  split
  case isTrue hfits =>
    simp only [Context.offer, hfits.1, hfits.2, if_true, Match.inForce, List.foldl_cons,
      List.foldl_nil, Match.keep]
    split
    · exact Table.get?_insert_self d.matched id _
    · rfl
  case isFalse hother =>
    unfold Context.offer
    split
    · rfl
    case h_2 id' hreason =>
      split
      case isFalse => rfl
      case isTrue hcomparison =>
        -- the offer is for another check and writes there
        have hne : id ≠ id' := by
          rintro rfl
          exact hother ⟨hreason, hcomparison⟩
        dsimp only
        split
        · exact Table.get?_insert_of_ne d.matched hne _
        · rfl

/-- Two paths are compared, and what they offer is kept one after the other. -/
theorem get?_comparePaths (id : CheckId) {a b : SummarizedPath}
    (h : c.comparePaths d a b = .ok d') : ∃ offers, c.offeredByPair id a b = .ok offers ∧
      d'.matched.get? id = Match.inForce (d.matched.get? id) offers := by
  unfold Context.comparePaths at h
  unfold offeredByPair
  split at h
  case isTrue hsame =>
    obtain rfl := Except.ok.inj h
    exact ⟨[], if_pos hsame, rfl⟩
  case isFalse hother =>
    obtain ⟨found, hfound, h⟩ := bind_eq_ok_iff.mp h
    rw [if_neg hother]
    dsimp only at h ⊢
    rw [hfound, ok_bind]
    split at h
    case isTrue hratio =>
      obtain rfl := Except.ok.inj h
      exact ⟨[], if_pos hratio, rfl⟩
    case isFalse hratio =>
      obtain rfl := Except.ok.inj h
      refine ⟨_, if_neg hratio, ?_⟩
      rw [get?_offer, get?_offer, Match.inForce_append]

/-- One path is compared with some others. -/
theorem get?_foldlM_comparePaths (id : CheckId) {s : SummarizedPath} {ts : List SummarizedPath}
    (h : ts.foldlM (fun d t => c.comparePaths d s t) d = .ok d') :
    ∃ offers, ts.mapM (c.offeredByPair id s) = .ok offers ∧
      d'.matched.get? id = Match.inForce (d.matched.get? id) offers.flatten := by
  induction ts generalizing d with
  | nil =>
    obtain rfl := Except.ok.inj h
    exact ⟨[], rfl, rfl⟩
  | cons t rest ih =>
    obtain ⟨d₁, hd₁, h⟩ := bind_eq_ok_iff.mp h
    obtain ⟨offers, hoffers, hfirst⟩ := get?_comparePaths id hd₁
    obtain ⟨more, hmore, hrest⟩ := ih h
    refine ⟨offers :: more, ?_, ?_⟩
    · rw [List.mapM_cons, hoffers, ok_bind, hmore]
      rfl
    · rw [hrest, hfirst, List.flatten_cons, Match.inForce_append]

/-- **Each condition is decided by what is offered to it**: after all paths are compared, what is in
force of the offers stands in the table. -/
theorem get?_compareAll (id : CheckId) {paths : List SummarizedPath}
    (h : c.compareAll d paths = .ok d') : ∃ offers, c.offersFor id paths = .ok offers ∧
      d'.matched.get? id = Match.inForce (d.matched.get? id) offers := by
  induction paths generalizing d with
  | nil =>
    obtain rfl := Except.ok.inj h
    exact ⟨[], rfl, rfl⟩
  | cons s rest ih =>
    obtain ⟨d₁, hd₁, h⟩ := bind_eq_ok_iff.mp h
    obtain ⟨offers, hoffers, hfirst⟩ := get?_foldlM_comparePaths id hd₁
    obtain ⟨more, hmore, hrest⟩ := ih h
    refine ⟨offers.flatten ++ more, ?_, ?_⟩
    · rw [offersFor, hoffers, ok_bind, hmore]
      rfl
    · rw [hrest, hfirst, Match.inForce_append]

end Context

namespace Match

/-- **The best match wins, whatever the order of the offers.** The rank in force is the least of the
ranks of all offers and of what was in force at first, where no match counts as the worst there is
and gives way to any other. The match in force is the last of the best ones. What is compared of it
is the same for every order of the offers. While the paths of a function are compared, this is how
every condition is decided. -/
theorem inForce_best_in_any_order :
    (∀ current offers, IsLeast (insert (rank current) {r | ∃ m ∈ offers, rank (some m) = r})
        (rank (inForce current offers)) ∧
      (inForce current offers = none ↔ current = none ∧ offers = []) ∧
      (∀ m, inForce current offers = some m → m.IsLastBest (current.toList ++ offers)) ∧
      ∀ offers', offers'.Perm offers →
        grade (inForce current offers') = grade (inForce current offers)) ∧
    ∀ (c : Context) (d d' : Decisions) (paths : List SummarizedPath),
      c.compareAll d paths = .ok d' → ∀ id, ∃ offers, c.offersFor id paths = .ok offers ∧
        d'.matched.get? id = inForce (d.matched.get? id) offers := by
  refine ⟨fun current offers => ?_, fun c d d' paths h id => Context.get?_compareAll id h⟩
  have hleast := isLeast_rank_inForce current offers
  refine ⟨hleast, inForce_eq_none_iff, fun m => isLastBest_of_inForce, fun offers' hperm => ?_⟩
  have hleast' := isLeast_rank_inForce current offers'
  simp only [hperm.mem_iff] at hleast'
  exact rank_eq_iff.mp (hleast'.unique hleast)

/-- A function with three checks, whose error sides are alike. -/
def alikeThrice : List Directive :=
  [.module "m", .declare ⟨0⟩ "source" [] (.int 32), .declare ⟨0⟩ "log" [] .void,
    .declare ⟨0⟩ "thrice" [] (.int 32),
    .define ⟨2⟩ [.block, .block, .block, .block, .block, .block, .block,
      .moveTo ⟨0⟩, .call ⟨0⟩ [], .cmp .slt (.inst ⟨0⟩) (.int 0 32), .branch (.inst ⟨1⟩) ⟨1⟩ ⟨2⟩,
      .moveTo ⟨1⟩, .call ⟨1⟩ [], .ret (some (.int (-1) 32)),
      .moveTo ⟨2⟩, .call ⟨0⟩ [], .cmp .slt (.inst ⟨5⟩) (.int 0 32), .branch (.inst ⟨6⟩) ⟨3⟩ ⟨4⟩,
      .moveTo ⟨3⟩, .call ⟨1⟩ [], .ret (some (.int (-1) 32)),
      .moveTo ⟨4⟩, .call ⟨0⟩ [], .cmp .slt (.inst ⟨10⟩) (.int 0 32), .branch (.inst ⟨11⟩) ⟨5⟩ ⟨6⟩,
      .moveTo ⟨5⟩, .call ⟨1⟩ [], .ret (some (.int (-1) 32)),
      .moveTo ⟨6⟩, .ret (some (.int 0 32))]]

/-- A match with many branches gives way to one without, although it has more in common. Of two
equally good ones the last is in force, so that another order leaves the other one. The first check
of `thrice` is offered its other side, which is like that of the second check, and its error side
twice; it is decided by the error side. -/
theorem inForce_three_offers :
    (∃ many first second : Match,
      grade (some many) = (2, 3, 3) ∧ grade (some first) = (0, 1, 5) ∧
      inForce none [many, first, second] = some second ∧
      second.IsLastBest [many, first, second] ∧ [second, first, many].Perm [many, first, second] ∧
      inForce none [second, first, many] = some first ∧ first ≠ second ∧
      grade (inForce none [second, first, many]) = grade (inForce none [many, first, second])) ∧
    ∃ c paths d, Context.ofDirectives alikeThrice = .ok c ∧
      c.summarizedPaths (c.identifiedConditions ⟨2⟩) = .ok paths ∧ c.compareAll {} paths = .ok d ∧
      c.offersFor ⟨⟨2⟩, 0⟩ paths =
        .ok [⟨some ⟨2⟩, 1, 2, 2⟩, ⟨some ⟨1⟩, 2, 2, 0⟩, ⟨some ⟨1⟩, 2, 2, 0⟩] ∧
      d.matched.get? ⟨⟨2⟩, 0⟩ = some ⟨some ⟨1⟩, 2, 2, 0⟩ := by
  obtain ⟨hbest, hdecided⟩ := inForce_best_in_any_order
  constructor
  · obtain ⟨-, -, hlast, hperm⟩ := hbest none
      [⟨some ⟨1⟩, 3, 3, 2⟩, ⟨some ⟨2⟩, 1, 5, 0⟩, ⟨some ⟨3⟩, 1, 5, 0⟩]
    exact ⟨_, _, _, rfl, rfl, by decide, hlast _ (by decide), by decide, by decide, by decide,
      hperm _ (by decide)⟩
  · obtain ⟨c, hc, paths, hpaths, d, hd, hoffers⟩ : ∃ c, Context.ofDirectives alikeThrice = .ok c ∧
        ∃ paths, c.summarizedPaths (c.identifiedConditions ⟨2⟩) = .ok paths ∧
        ∃ d, c.compareAll {} paths = .ok d ∧ c.offersFor ⟨⟨2⟩, 0⟩ paths =
          .ok [⟨some ⟨2⟩, 1, 2, 2⟩, ⟨some ⟨1⟩, 2, 2, 0⟩, ⟨some ⟨1⟩, 2, 2, 0⟩] := by
      decide +kernel
    obtain ⟨offers, hoffers', hfirst⟩ := hdecided c {} d paths hd ⟨⟨2⟩, 0⟩
    obtain rfl := Except.ok.inj (hoffers.symm.trans hoffers')
    exact ⟨c, paths, d, hc, hpaths, hd, hoffers, hfirst⟩

end Match

end ErrorReturns
