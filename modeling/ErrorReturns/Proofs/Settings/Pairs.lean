import ErrorReturns.Settings

/-!
# Settings from pairs

Every setting has one field, and a value either means something to a key or it does not. A pair
whose value means something puts it into the field of its key; any other pair leaves the settings
as they were. So the pairs need not be run to know where they lead: a field holds what the last
pair with its key means, and pairs are refused for the first of them that means nothing, or for
the number of workers that they leave.

What a value means is said in `Key.parse?`, without errors and without settings; `Key.read` is
the same with errors, and `change` is shown to read and then to put.
-/

namespace ErrorReturns

/-- The key that an error is about. -/
def SettingsError.key? : SettingsError → Option String
  | unknownKey key => some key
  | invalidValue key _ => some key
  | outOfRange key _ => some key
  | malformed => none

namespace Settings

/-! ## Fields -/

/-- What the field of a key holds. -/
@[reducible] def Key.Content : Key → Type
  | .associationConfidence => Float
  | .intervalConfidence => Float
  | .incorrectThreshold => Float
  | .missingThreshold => Float
  | .refineRanges => Bool
  | .allowlist => SortedSet String
  | .threads => Nat
  | .showChecks => Bool

/-- The field of a key. -/
def content (s : Settings) : (k : Key) → k.Content
  | .associationConfidence => s.associationConfidence
  | .intervalConfidence => s.intervalConfidence
  | .incorrectThreshold => s.incorrectThreshold
  | .missingThreshold => s.missingThreshold
  | .refineRanges => s.refineRanges
  | .allowlist => s.allowlist
  | .threads => s.threads
  | .showChecks => s.showChecks

/-- The settings with another content of one field. -/
def put (s : Settings) : (k : Key) → k.Content → Settings
  | .associationConfidence, x => { s with associationConfidence := x }
  | .intervalConfidence, x => { s with intervalConfidence := x }
  | .incorrectThreshold, x => { s with incorrectThreshold := x }
  | .missingThreshold, x => { s with missingThreshold := x }
  | .refineRanges, b => { s with refineRanges := b }
  | .allowlist, names => { s with allowlist := names }
  | .threads, n => { s with threads := n }
  | .showChecks, b => { s with showChecks := b }

@[simp] theorem content_put_self (s : Settings) (k : Key) (v : k.Content) :
    (s.put k v).content k = v := by
  cases k <;> rfl

theorem content_put_of_ne (s : Settings) {k k' : Key} (h : k' ≠ k) (v : k.Content) :
    (s.put k v).content k' = s.content k' := by
  cases k <;> cases k' <;> (try contradiction) <;> rfl

/-- The four settings that are fractions. -/
def fractions (s : Settings) : List Float :=
  [s.associationConfidence, s.intervalConfidence, s.incorrectThreshold, s.missingThreshold]

/-! ## What values mean -/

/-- A number that is not below zero and not above one; it is a number. -/
def InUnit (x : Float) : Prop := x.isNaN = false ∧ 0 ≤ x ∧ x ≤ 1

instance (x : Float) : Decidable (InUnit x) := inferInstanceAs (Decidable (_ ∧ _ ∧ _))

/-- Nothing is above what is not a number. -/
theorem not_le_of_isNaN {x : Float} (hx : x.isNaN = true) (y : Float) : ¬x ≤ y := by
  intro hle
  have hnan : x.toModel.unpack.isNaN = true := hx
  have hmodel : x.toModel.unpack.le y.toModel.unpack = true := of_decide_eq_true hle
  unfold Float.Model.UnpackedFloat.isNaN at hnan
  split at hnan
  next heq =>
    rw [heq] at hmodel
    cases hmodel
  next => cases hnan

/-- A comparison with both bounds leaves out what is not a number. -/
theorem isFraction_iff {x : Float} : isFraction x = true ↔ InUnit x := by
  rw [isFraction, Bool.and_eq_true, decide_eq_true_iff, decide_eq_true_iff]
  refine ⟨fun h => ⟨?_, h⟩, fun h => h.2⟩
  exact Bool.eq_false_iff.mpr fun hnan => not_le_of_isNaN hnan 1 h.2

/-- A fraction, if a text is one. -/
def fraction? (value : List Char) : Option Float :=
  (Decimal.read? value).filter fun x => InUnit x

/-- **What a value means to a key**, if it means anything. -/
def Key.parse? : (k : Key) → List Char → Option k.Content
  | .associationConfidence => fraction?
  | .intervalConfidence => fraction?
  | .incorrectThreshold => fraction?
  | .missingThreshold => fraction?
  | .refineRanges => readBool?
  | .allowlist => fun value => some (splitNames value)
  | .threads => Decimal.readNat64?
  | .showChecks => readBool?

/-- **A pair is accepted**: there is a key of this name, and the value, without the blanks around
it, means something to the key. -/
def Accepts (key value : String) : Prop :=
  ∃ k : Key, k.name = key ∧ ∃ v, k.parse? (Text.trim value.toList) = some v

@[simp] theorem Key.ofName?_name (k : Key) : Key.ofName? k.name = some k := by
  cases k <;> decide

theorem Key.name_injective : Function.Injective Key.name := by
  intro k k' h
  have hsome : some k = some k' := by rw [← ofName?_name k, h, ofName?_name]
  exact Option.some.inj hsome

theorem Key.ofName?_eq_some_iff {name : String} {k : Key} :
    Key.ofName? name = some k ↔ k.name = name := by
  constructor
  · intro h
    exact eq_of_beq (List.find?_some (p := fun k : Key => k.name == name) h)
  · rintro rfl
    exact ofName?_name k

theorem accepts_iff {key value : String} :
    Accepts key value ↔
      ∃ k ∈ Key.ofName? key, (k.parse? (Text.trim value.toList)).isSome = true := by
  simp only [Accepts, Option.mem_def, Key.ofName?_eq_some_iff, Option.isSome_iff_exists]

instance (key value : String) : Decidable (Accepts key value) := decidable_of_iff _ accepts_iff.symm

/-! ## What a pair does -/

/-- What a value means to a key, or what is wrong with it. -/
def Key.read : (k : Key) → List Char → Except SettingsError k.Content
  | .associationConfidence => readFraction .associationConfidence
  | .intervalConfidence => readFraction .intervalConfidence
  | .incorrectThreshold => readFraction .incorrectThreshold
  | .missingThreshold => readFraction .missingThreshold
  | .refineRanges => fun value => required .refineRanges value readBool?
  | .allowlist => fun value => .ok (splitNames value)
  | .threads => fun value => required .threads value Decimal.readNat64?
  | .showChecks => fun value => required .showChecks value readBool?

/-- Every field is written alike: what was read is put. -/
theorem assign_eq_store (k : Key) (value : List Char) :
    assign k value = store (k.read value) fun s v => s.put k v := by
  cases k <;> rfl

@[simp] theorem toOption_required {α : Type} (k : Key) (value : List Char)
    (read : List Char → Option α) :
    (required k value read).toOption = read value := by
  unfold required
  cases read value <;> rfl

@[simp] theorem toOption_checkFraction (k : Key) (x : Float) :
    (checkFraction k x).toOption = (some x).filter fun x => InUnit x := by
  unfold checkFraction
  rw [Option.filter_some]
  by_cases hx : InUnit x
  · rw [if_pos (isFraction_iff.mpr hx), if_pos (decide_eq_true hx)]
    rfl
  · rw [if_neg (mt isFraction_iff.mp hx), if_neg (by simpa using hx)]
    rfl

@[simp] theorem toOption_readFraction (k : Key) (value : List Char) :
    (readFraction k value).toOption = fraction? value := by
  unfold readFraction required fraction?
  cases Decimal.read? value with
  | none => rfl
  | some x => exact toOption_checkFraction k x

/-- Reading succeeds where the value means something. -/
@[simp] theorem Key.toOption_read (k : Key) (value : List Char) :
    (k.read value).toOption = k.parse? value := by
  cases k with
  | allowlist => rfl
  | refineRanges | threads | showChecks => exact toOption_required _ value _
  | associationConfidence | intervalConfidence | incorrectThreshold | missingThreshold =>
    exact toOption_readFraction _ value

theorem key?_of_required {α : Type} {k : Key} {value : List Char} {read : List Char → Option α}
    {e : SettingsError} (h : required k value read = .error e) : e.key? = some k.name := by
  unfold required at h
  split at h
  next => cases h
  next =>
    cases h
    rfl

/-- If a fraction is not read, the error names its key. -/
theorem key?_of_readFraction {k : Key} {value : List Char} {e : SettingsError}
    (h : readFraction k value = .error e) : e.key? = some k.name := by
  unfold readFraction at h
  cases hread : required k value Decimal.read? with
  | error e' =>
    rw [hread] at h
    cases h
    exact key?_of_required hread
  | ok x =>
    rw [hread] at h
    change checkFraction k x = .error e at h
    unfold checkFraction at h
    split at h
    next => cases h
    next =>
      cases h
      rfl

/-- What is wrong with a value is wrong with the value of that key. -/
theorem Key.key?_of_read {k : Key} {value : List Char} {e : SettingsError}
    (h : k.read value = .error e) : e.key? = some k.name := by
  cases k with
  | allowlist => cases h
  | refineRanges | threads | showChecks => exact key?_of_required h
  | associationConfidence | intervalConfidence | incorrectThreshold | missingThreshold =>
    exact key?_of_readFraction h

/-- **A pair reads its value, and then puts it into its field.** -/
theorem apply_change (k : Key) (value : String) (s : Settings) :
    (change k.name value).apply s =
      match k.read (Text.trim value.toList) with
      | .ok v => (.ok (), s.put k v)
      | .error e => (.error e, s) := by
  have hchange : change k.name value =
      store (k.read (Text.trim value.toList)) fun s v => s.put k v := by
    rw [change, Key.ofName?_name]
    exact assign_eq_store k _
  rw [hchange]
  cases k.read (Text.trim value.toList) <;> rfl

/-- A pair that is accepted puts its meaning into its field. -/
theorem apply_change_of_parse? {k : Key} {value : String} {v : k.Content}
    (h : k.parse? (Text.trim value.toList) = some v) (s : Settings) :
    (change k.name value).apply s = (.ok (), s.put k v) := by
  have hread : k.read (Text.trim value.toList) = .ok v := by
    have htoOption := k.toOption_read (Text.trim value.toList)
    rw [h] at htoOption
    cases hk : k.read (Text.trim value.toList) with
    | ok v' =>
      rw [hk] at htoOption
      exact congrArg Except.ok (Option.some.inj htoOption)
    | error e =>
      rw [hk] at htoOption
      cases htoOption
  rw [apply_change, hread]

/-- A pair that is not accepted fails alike on all settings, changes none of them, and names its
key. -/
theorem apply_change_of_not_accepts {key value : String} (h : ¬Accepts key value) :
    ∃ e : SettingsError, e.key? = some key ∧ ∀ s, (change key value).apply s = (.error e, s) := by
  cases hkey : Key.ofName? key with
  | none =>
    refine ⟨.unknownKey key, rfl, fun s => ?_⟩
    rw [change, hkey]
    rfl
  | some k =>
    obtain rfl : k.name = key := Key.ofName?_eq_some_iff.mp hkey
    cases hread : k.read (Text.trim value.toList) with
    | error e =>
      refine ⟨e, Key.key?_of_read hread, fun s => ?_⟩
      rw [apply_change, hread]
    | ok v =>
      refine absurd ⟨k, rfl, v, ?_⟩ h
      rw [← k.toOption_read, hread]
      rfl

/-! ## What some pairs do -/

/-- The last value that is given for a key. -/
def lastValue? (k : Key) (pairs : List (String × String)) : Option String :=
  ((pairs.filter fun p => p.1 = k.name).getLast?).map (·.2)

@[simp] theorem lastValue?_cons (k : Key) (p : String × String) (pairs : List (String × String)) :
    lastValue? k (p :: pairs) =
      (lastValue? k pairs).or (if p.1 = k.name then some p.2 else none) := by
  unfold lastValue?
  by_cases hp : p.1 = k.name
  · rw [List.filter_cons_of_pos (by simpa using hp), List.getLast?_cons, if_pos hp]
    cases (pairs.filter fun p => p.1 = k.name).getLast? <;> rfl
  · rw [List.filter_cons_of_neg (by simpa using hp), if_neg hp, Option.or_none]

/-- What a field holds now is what the last value given for it means. If none was given, it is
what the field held before. -/
def Latest {α : Type} (parse? : List Char → Option α) (given : Option String) (before now : α) :
    Prop :=
  match given with
  | some value => parse? (Text.trim value.toList) = some now
  | none => now = before

/-- **Pairs lead from some settings to others**: the last pair with its key decides about every
field. -/
def LeadTo (pairs : List (String × String)) (s s' : Settings) : Prop :=
  ∀ k : Key, Latest k.parse? (lastValue? k pairs) (s.content k) (s'.content k)

theorem LeadTo.nil (s : Settings) : LeadTo [] s s := fun _ => rfl

/-- One more pair in front changes its own setting, and the others are read after it. -/
theorem LeadTo.cons {k : Key} {value : String} {v : k.Content}
    (h : k.parse? (Text.trim value.toList) = some v) {pairs : List (String × String)}
    {s s' : Settings} (hrest : LeadTo pairs (s.put k v) s') :
    LeadTo ((k.name, value) :: pairs) s s' := by
  intro k'
  have hk' := hrest k'
  rw [lastValue?_cons]
  cases hlast : lastValue? k' pairs with
  | some value' =>
    rw [hlast] at hk'
    exact hk'
  | none =>
    rw [hlast] at hk'
    -- no later pair has this key, so it is this pair that decides, if it has
    by_cases hkey : k' = k
    · subst hkey
      rw [if_pos rfl]
      rw [Latest, content_put_self] at hk'
      exact hk' ▸ h
    · rw [if_neg fun hname => hkey (Key.name_injective hname).symm]
      rw [Latest, content_put_of_ne s hkey] at hk'
      exact hk'

section Run

variable {s s' : Settings} {c rest : Change Unit}

theorem after_bind_of_ok (h : c.apply s = (.ok (), s')) :
    s.after (c >>= fun _ => rest) = s'.after rest := by
  have happly : (c >>= fun _ => rest).apply s = rest.apply s' := by
    rw [Change.apply, ExceptT.run_bind, StateT.run_bind, show c.run.run s = _ from h]
    rfl
  rw [after, happly, after]

theorem after_bind_of_error {e : SettingsError} (h : c.apply s = (.error e, s')) :
    s.after (c >>= fun _ => rest) = .error e := by
  have happly : (c >>= fun _ => rest).apply s = (.error e, s') := by
    rw [Change.apply, ExceptT.run_bind, StateT.run_bind, show c.run.run s = _ from h]
    rfl
  rw [after, happly]

end Run

/-- The run goes on after a pair that is accepted. -/
theorem after_pairs_cons {k : Key} {value : String} {v : k.Content}
    (h : k.parse? (Text.trim value.toList) = some v) (pairs : List (String × String))
    (s : Settings) :
    s.after (((k.name, value) :: pairs).forM fun p => change p.1 p.2) =
      (s.put k v).after (pairs.forM fun p => change p.1 p.2) :=
  after_bind_of_ok (apply_change_of_parse? h s)

/-- **Pairs that are all accepted** lead somewhere, and the last of each key decides. -/
theorem after_pairs_of_accepts {pairs : List (String × String)}
    (h : ∀ p ∈ pairs, Accepts p.1 p.2) (s : Settings) :
    ∃ s', s.after (pairs.forM fun p => change p.1 p.2) = .ok s' ∧ LeadTo pairs s s' := by
  induction pairs generalizing s with
  | nil => exact ⟨s, rfl, .nil s⟩
  | cons p pairs ih =>
    obtain ⟨key, value⟩ := p
    obtain ⟨k, rfl, v, hv⟩ := h _ List.mem_cons_self
    obtain ⟨s', hs', hlead⟩ := ih (fun q hq => h q (List.mem_cons_of_mem _ hq)) (s.put k v)
    refine ⟨s', ?_, .cons hv hlead⟩
    rw [after_pairs_cons hv, hs']

/-- **The first pair that is not accepted** is where the run ends. -/
theorem after_pairs_of_error {before rest : List (String × String)} {p : String × String}
    {e : SettingsError} (hbefore : ∀ q ∈ before, Accepts q.1 q.2)
    (hp : ∀ s, (change p.1 p.2).apply s = (.error e, s)) (s : Settings) :
    s.after ((before ++ p :: rest).forM fun p => change p.1 p.2) = .error e := by
  induction before generalizing s with
  | nil => exact after_bind_of_error (hp s)
  | cons q before ih =>
    obtain ⟨key, value⟩ := q
    obtain ⟨k, rfl, v, hv⟩ := hbefore _ List.mem_cons_self
    rw [List.cons_append, after_pairs_cons hv]
    exact ih (fun q hq => hbefore q (List.mem_cons_of_mem _ hq)) _

/-! ## The check after the last pair -/

/-- Settings whose fractions are fractions are refused only for the number of workers. -/
theorem validate_of_inUnit {s : Settings} (h : ∀ x ∈ s.fractions, InUnit x) :
    s.validate = if s.threads = 0 then .error (.invalidValue Key.threads.name "0") else .ok s := by
  have hcheck : ∀ k, ∀ x ∈ s.fractions, checkFraction k x = .ok x := fun k x hx =>
    if_pos (isFraction_iff.mpr (h x hx))
  rw [validate, hcheck _ _ (by simp [fractions]), hcheck _ _ (by simp [fractions]),
    hcheck _ _ (by simp [fractions]), hcheck _ _ (by simp [fractions])]
  by_cases hthreads : s.threads = 0
  · simp only [if_pos hthreads]
    rfl
  · simp only [if_neg hthreads]
    rfl

theorem Latest.inUnit {given : Option String} {before now : Float}
    (h : Latest fraction? given before now) (hbefore : InUnit before) : InUnit now := by
  cases given with
  | none => exact h ▸ hbefore
  | some value => exact of_decide_eq_true (Option.filter_eq_some_iff.mp h).2

/-- Pairs lead from the defaults to fractions. -/
theorem LeadTo.inUnit {pairs : List (String × String)} {s : Settings} (h : LeadTo pairs {} s) :
    ∀ x ∈ s.fractions, InUnit x := by
  have hdefaults : ∀ x ∈ ({} : Settings).fractions, InUnit x := by decide +kernel
  intro x hx
  simp only [fractions, List.mem_cons, List.not_mem_nil, or_false] at hx
  rcases hx with rfl | rfl | rfl | rfl
  · exact (h .associationConfidence).inUnit (hdefaults _ (by simp [fractions, content]))
  · exact (h .intervalConfidence).inUnit (hdefaults _ (by simp [fractions, content]))
  · exact (h .incorrectThreshold).inUnit (hdefaults _ (by simp [fractions, content]))
  · exact (h .missingThreshold).inUnit (hdefaults _ (by simp [fractions, content]))

/-- There is no worker after some pairs just if the last number given is zero. -/
theorem LeadTo.threads_eq_zero_iff {pairs : List (String × String)} {s : Settings}
    (h : LeadTo pairs {} s) :
    s.threads = 0 ↔ ∃ value ∈ lastValue? .threads pairs,
      Key.threads.parse? (Text.trim value.toList) = some 0 := by
  have hthreads := h .threads
  cases hlast : lastValue? .threads pairs with
  | none =>
    rw [hlast] at hthreads
    have hdefault : s.threads = 2 := hthreads
    simp [hdefault]
  | some value =>
    rw [hlast] at hthreads
    have hvalue : Key.threads.parse? (Text.trim value.toList) = some s.threads := hthreads
    simp [hvalue]

/-! ## Settings from pairs -/

/-- A run to the end has accepted every pair. -/
theorem accepts_of_after_pairs {pairs : List (String × String)} {s s' : Settings}
    (h : s.after (pairs.forM fun p => change p.1 p.2) = .ok s') :
    ∀ p ∈ pairs, Accepts p.1 p.2 := by
  induction pairs generalizing s with
  | nil => exact fun p hp => absurd hp List.not_mem_nil
  | cons p pairs ih =>
    by_cases hp : Accepts p.1 p.2
    · obtain ⟨key, value⟩ := p
      obtain ⟨k, rfl, v, hv⟩ := hp
      rw [after_pairs_cons hv] at h
      exact List.forall_mem_cons.mpr ⟨⟨k, rfl, v, hv⟩, ih h⟩
    · obtain ⟨e, -, he⟩ := apply_change_of_not_accepts hp
      have herror : s.after (([] ++ p :: pairs).forM fun p => change p.1 p.2) = .error e :=
        after_pairs_of_error (by simp) he s
      cases herror.symm.trans h

theorem ofPairs_of_accepts {pairs : List (String × String)} (h : ∀ p ∈ pairs, Accepts p.1 p.2) :
    ∃ s, LeadTo pairs {} s ∧
      ofPairs pairs =
        if s.threads = 0 then .error (.invalidValue Key.threads.name "0") else .ok s := by
  obtain ⟨s, hafter, hlead⟩ := after_pairs_of_accepts h {}
  refine ⟨s, hlead, ?_⟩
  rw [ofPairs, hafter]
  exact validate_of_inUnit hlead.inUnit

theorem accepts_of_ofPairs {pairs : List (String × String)} {s : Settings}
    (h : ofPairs pairs = .ok s) : ∀ p ∈ pairs, Accepts p.1 p.2 := by
  cases hafter : after {} (pairs.forM fun p => change p.1 p.2) with
  | ok s' => exact accepts_of_after_pairs hafter
  | error e =>
    rw [ofPairs, hafter] at h
    cases h

/-- Settings from pairs are where the pairs lead, with at least one worker. -/
theorem leadTo_of_ofPairs {pairs : List (String × String)} {s : Settings}
    (h : ofPairs pairs = .ok s) : LeadTo pairs {} s ∧ s.threads ≠ 0 := by
  obtain ⟨s', hlead, heq⟩ := ofPairs_of_accepts (accepts_of_ofPairs h)
  rw [h] at heq
  split at heq
  next => cases heq
  next hthreads =>
    cases heq
    exact ⟨hlead, hthreads⟩

theorem set_of_apply_ok {s s' : Settings} {key value : String}
    (h : (change key value).apply s = (.ok (), s')) : s.set key value = .ok s' := by
  rw [set, after, h]

theorem set_of_apply_error {s s' : Settings} {key value : String} {e : SettingsError}
    (h : (change key value).apply s = (.error e, s')) : s.set key value = .error e := by
  rw [set, after, h]

/-- **A pair is applied as a whole or not at all, and the last pair with a key decides.**

A pair that is not accepted fails, leaves every field as it was, and its error names its key; any
other pair succeeds and changes no field but that of its key. Pairs are applied to the defaults
without a failure just if all of them are accepted and the last number of workers, if there is
one, is not zero. Each field then holds what the last value given for it means, or its default;
the fractions are fractions, and there is a worker. The first pair that is not accepted fails as
it would on any settings, and if there is none, it is the number of workers that is refused. -/
theorem pairs_atomic_last_wins :
    (∀ (s : Settings) (key value : String),
      (¬Accepts key value ∧ ∃ e : SettingsError, e.key? = some key ∧
        s.set key value = .error e ∧ (change key value).apply s = (.error e, s)) ∨
      ∃ (k : Key) (v : k.Content) (s' : Settings),
        k.name = key ∧ k.parse? (Text.trim value.toList) = some v ∧
        s.set key value = .ok s' ∧ (change key value).apply s = (.ok (), s') ∧
        s'.content k = v ∧ ∀ k', k' ≠ k → s'.content k' = s.content k') ∧
    ∀ pairs : List (String × String),
      ((∃ s, ofPairs pairs = .ok s) ↔
        (∀ p ∈ pairs, Accepts p.1 p.2) ∧
        ∀ value ∈ lastValue? .threads pairs,
          Key.threads.parse? (Text.trim value.toList) ≠ some 0) ∧
      (∀ s, ofPairs pairs = .ok s →
        LeadTo pairs {} s ∧ (∀ x ∈ s.fractions, InUnit x) ∧ 1 ≤ s.threads) ∧
      (∀ before p rest, pairs = before ++ p :: rest → (∀ q ∈ before, Accepts q.1 q.2) →
        ¬Accepts p.1 p.2 →
        ∃ e, ofPairs pairs = .error e ∧ ∀ s : Settings, s.set p.1 p.2 = .error e) ∧
      ((∀ p ∈ pairs, Accepts p.1 p.2) → (¬∃ s, ofPairs pairs = .ok s) →
        ofPairs pairs = .error (.invalidValue Key.threads.name "0")) := by
  -- the first part is about one pair; the rest follows the pairs in order, where the only check
  -- made at the end is the one on the number of threads
  refine ⟨fun s key value => ?_, fun pairs => ⟨⟨?_, ?_⟩, ?_, ?_, ?_⟩⟩
  · by_cases haccepts : Accepts key value
    · obtain ⟨k, rfl, v, hv⟩ := haccepts
      have happly := apply_change_of_parse? hv s
      exact .inr ⟨k, v, s.put k v, rfl, hv, set_of_apply_ok happly, happly,
        content_put_self s k v, fun k' hk' => content_put_of_ne s hk' v⟩
    · obtain ⟨e, hkey, happly⟩ := apply_change_of_not_accepts haccepts
      exact .inl ⟨haccepts, e, hkey, set_of_apply_error (happly s), happly s⟩
  · rintro ⟨s, hs⟩
    obtain ⟨hlead, hthreads⟩ := leadTo_of_ofPairs hs
    refine ⟨accepts_of_ofPairs hs, fun value hvalue hzero => ?_⟩
    exact hthreads (hlead.threads_eq_zero_iff.mpr ⟨value, hvalue, hzero⟩)
  · rintro ⟨haccepts, hlast⟩
    obtain ⟨s, hlead, heq⟩ := ofPairs_of_accepts haccepts
    have hthreads : s.threads ≠ 0 := by
      intro hzero
      obtain ⟨value, hvalue, hparse⟩ := hlead.threads_eq_zero_iff.mp hzero
      exact hlast value hvalue hparse
    exact ⟨s, heq.trans (if_neg hthreads)⟩
  · intro s hs
    obtain ⟨hlead, hthreads⟩ := leadTo_of_ofPairs hs
    exact ⟨hlead, hlead.inUnit, Nat.one_le_iff_ne_zero.mpr hthreads⟩
  · rintro before p rest rfl hbefore hp
    obtain ⟨e, -, happly⟩ := apply_change_of_not_accepts hp
    refine ⟨e, ?_, fun s => set_of_apply_error (happly s)⟩
    rw [ofPairs, after_pairs_of_error hbefore happly]
    rfl
  · intro haccepts hfails
    obtain ⟨s, -, heq⟩ := ofPairs_of_accepts haccepts
    split at heq
    next => exact heq
    next => exact absurd ⟨s, heq⟩ hfails

/-- Pairs with blanks, with a key given twice, and with a number of workers that does not
stand. -/
def rewrittenPairs : List (String × String) :=
  [("threads", "0"), ("interval-confidence", "7e-1"), ("allowlist", "b , a"), ("threads", " 3 "),
    ("interval-confidence", "\t1.0")]

/-- The values given last stand; and a pair that is not accepted is refused before a later one
that is not accepted either. -/
theorem rewrittenPairs_last_win :
    (∃ s, ofPairs rewrittenPairs = .ok s ∧ s.threads = 3 ∧ s.intervalConfidence = 1 ∧
      s.missingThreshold = ({} : Settings).missingThreshold) ∧
    ∃ e, ofPairs (rewrittenPairs ++ ("interval-confidence", "NaN") :: [("workers", "1")]) =
      .error e ∧ ∀ s : Settings, s.set "interval-confidence" "NaN" = .error e := by
  constructor
  · have h := pairs_atomic_last_wins.2 rewrittenPairs
    obtain ⟨s, hs⟩ := h.1.mpr ⟨by decide +kernel, by decide +kernel⟩
    have hlead : LeadTo rewrittenPairs {} s := (h.2.1 s hs).1
    have hthreads : Key.threads.parse? (Text.trim " 3 ".toList) = some s.threads := hlead .threads
    have hinterval : Key.intervalConfidence.parse? (Text.trim "\t1.0".toList) =
      some s.intervalConfidence := hlead .intervalConfidence
    exact ⟨s, hs,
      Option.some.inj (hthreads.symm.trans (by decide +kernel)),
      Option.some.inj (hinterval.symm.trans (by decide +kernel)),
      hlead .missingThreshold⟩
  · exact (pairs_atomic_last_wins.2 _).2.2.1 rewrittenPairs ("interval-confidence", "NaN")
      [("workers", "1")] rfl (by decide +kernel) (by decide +kernel)

end Settings

end ErrorReturns
