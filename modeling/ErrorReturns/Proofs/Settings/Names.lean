import ErrorReturns.Proofs.Document.Record
import ErrorReturns.Proofs.Settings.Pairs
import ErrorReturns.Proofs.Table.Lookup
import ErrorReturns.Settings.Written
import Mathlib.Data.List.DropRight
import Mathlib.Data.List.TakeWhile

/-!
# Names that come back

The names of the functions to analyse travel as one text, with commas between them. A set of
names comes back from that text if no name has a comma, is empty, or has blanks at an end: joining
then leaves parts that splitting finds again, and cleaning has nothing left to clean. Splitting
yields only such names, so what was once read from a text, and this is how settings come by their
names, survives being written and read any number of times.
-/

namespace ErrorReturns

/-! ## Splitting, joining and trimming -/

namespace Text

theorem split_eq_splitOn (c : Char) (s : List Char) : split c s = s.splitOn c := by
  induction s with
  | nil => rfl
  | cons d s ih =>
    rw [List.splitOn_cons_eq_if_modifyHead, split, ih]
    cases hparts : s.splitOn c with
    | nil => exact absurd hparts (List.splitOn_ne_nil c s)
    | cons part parts => by_cases hd : d = c <;> simp [hd]

theorem join_eq_intercalate (c : Char) (parts : List (List Char)) :
    join c parts = [c].intercalate parts := by
  induction parts with
  | nil => rfl
  | cons part parts ih =>
    cases parts with
    | nil => rw [join, List.intercalate_singleton]
    | cons next rest =>
      rw [join, ih, List.intercalate_cons_cons, List.append_assoc, List.singleton_append]
      exact List.cons_ne_nil next rest

/-- **Splitting undoes joining**, if the separator is in no part. -/
theorem split_join {c : Char} {parts : List (List Char)} (h : ∀ part ∈ parts, c ∉ part)
    (hne : parts ≠ []) : split c (join c parts) = parts := by
  rw [split_eq_splitOn, join_eq_intercalate, List.splitOn_intercalate _ h hne]

/-- No part has a separator. -/
theorem not_mem_of_mem_split {c : Char} {s part : List Char} (h : part ∈ split c s) :
    c ∉ part := by
  induction s generalizing part with
  | nil =>
    obtain rfl : part = [] := List.mem_singleton.mp h
    exact List.not_mem_nil
  | cons d s ih =>
    unfold split at h
    cases hparts : split c s with
    | nil =>
      rw [split_eq_splitOn] at hparts
      exact absurd hparts (List.splitOn_ne_nil c s)
    | cons first parts =>
      simp only [hparts] at h ih
      split at h
      next =>
        rcases List.mem_cons.mp h with rfl | h
        · exact List.not_mem_nil
        · exact ih h
      next hd =>
        rcases List.mem_cons.mp h with rfl | h
        · exact List.not_mem_cons_of_ne_of_not_mem (Ne.symm hd) (ih List.mem_cons_self)
        · exact ih (List.mem_cons_of_mem first h)

/-- **A text with no blank at either end.** -/
structure Trimmed (s : List Char) : Prop where
  head : ∀ c ∈ s.head?, isBlank c = false
  last : ∀ c ∈ s.getLast?, isBlank c = false

theorem trim_eq_rdropWhile (s : List Char) :
    trim s = (s.dropWhile isBlank).rdropWhile isBlank := rfl

/-- What is left starts where the leading blanks end. -/
theorem trim_prefix_dropWhile (s : List Char) : trim s <+: s.dropWhile isBlank :=
  List.rdropWhile_prefix isBlank _

theorem mem_of_mem_trim {c : Char} {s : List Char} (h : c ∈ trim s) : c ∈ s :=
  (List.dropWhile_sublist isBlank).subset ((trim_prefix_dropWhile s).subset h)

/-- What has been trimmed has no blank at either end. -/
theorem trimmed_trim (s : List Char) : Trimmed (trim s) where
  head c hc := by
    obtain ⟨rest, hrest⟩ := List.head?_eq_some_iff.mp hc
    obtain ⟨blanks, hblanks⟩ := trim_prefix_dropWhile s
    have hfirst := List.head?_dropWhile_not isBlank s
    rw [← hblanks, hrest] at hfirst
    exact hfirst
  last c hc := by
    have hne : trim s ≠ [] := by
      rintro hnil
      rw [hnil] at hc
      cases hc
    rw [List.getLast?_eq_some_getLast hne] at hc
    obtain rfl : (trim s).getLast hne = c := Option.some.inj hc
    exact Bool.eq_false_iff.mpr (List.rdropWhile_last_not isBlank _ hne)

theorem Trimmed.trim_eq {s : List Char} (h : Trimmed s) : trim s = s := by
  have hdrop : s.dropWhile isBlank = s := by
    cases s with
    | nil => rfl
    | cons c s => exact List.dropWhile_cons_of_neg (Bool.eq_false_iff.mp (h.head c rfl))
  rw [trim_eq_rdropWhile, hdrop, List.rdropWhile_eq_self_iff]
  intro hne
  exact Bool.eq_false_iff.mp (h.last _ (List.getLast?_eq_some_getLast hne))

end Text

namespace Settings

/-! ## Sets of names -/

/-- **A name that can stand in a list with commas.** -/
structure IsName (name : String) : Prop where
  ne_empty : name ≠ ""
  no_comma : ',' ∉ name.toList
  trimmed : Text.Trimmed name.toList

/-- The names of a text are its parts between commas, trimmed, as far as they are not empty. -/
theorem mem_splitNames {name : String} {s : List Char} :
    name ∈ splitNames s ↔
      name ≠ "" ∧ ∃ part ∈ Text.split ',' s, Text.trim part = name.toList := by
  simp only [splitNames, SortedSet.mem_ofList, List.mem_map, List.mem_filter, decide_eq_true_iff]
  constructor
  · rintro ⟨t, ⟨⟨part, hpart, rfl⟩, hne⟩, rfl⟩
    refine ⟨fun hempty => hne ?_, part, hpart, (String.toList_ofList).symm⟩
    simpa using hempty
  · rintro ⟨hne, part, hpart, htrim⟩
    refine ⟨name.toList, ⟨⟨part, hpart, htrim⟩, ?_⟩, String.ofList_toList⟩
    simpa using hne

/-- Splitting yields names. -/
theorem isName_of_mem_splitNames {name : String} {s : List Char} (h : name ∈ splitNames s) :
    IsName name := by
  obtain ⟨hne, part, hpart, htrim⟩ := mem_splitNames.mp h
  refine ⟨hne, fun hcomma => ?_, htrim ▸ Text.trimmed_trim part⟩
  rw [← htrim] at hcomma
  exact Text.not_mem_of_mem_split hpart (Text.mem_of_mem_trim hcomma)

/-- **A set of names comes back** from the text that lists them. -/
theorem splitNames_joinNames {names : SortedSet String}
    (hnames : ∀ name ∈ names, IsName name) : splitNames (joinNames names) = names := by
  refine SortedSet.ext fun name => ?_
  rw [mem_splitNames, joinNames]
  by_cases hempty : names.toList = []
  · -- no name at all is written as the empty text, whose one part is no name
    rw [hempty]
    constructor
    · rintro ⟨hne, part, hpart, htrim⟩
      obtain rfl : part = [] := List.mem_singleton.mp hpart
      exact absurd (String.toList_eq_nil_iff.mp htrim.symm) hne
    · intro hname
      have hnil : name ∈ ([] : List String) := hempty ▸ hname
      cases hnil
  · have hparts : ∀ part ∈ names.toList.map String.toList, ',' ∉ part :=
      List.forall_mem_map.mpr fun name hname => (hnames name hname).no_comma
    rw [Text.split_join hparts (by simpa using hempty)]
    constructor
    · rintro ⟨-, part, hpart, htrim⟩
      obtain ⟨name', hname', rfl⟩ := List.mem_map.mp hpart
      rw [(hnames name' hname').trimmed.trim_eq] at htrim
      exact String.toList_injective htrim ▸ hname'
    · intro hname
      have hisName := hnames name hname
      exact ⟨hisName.ne_empty, name.toList, List.mem_map_of_mem hname, hisName.trimmed.trim_eq⟩

/-! ## Names of settings -/

/-- **Settings that can come about**: the defaults, what pairs and documents make, and whatever one
more pair leaves, be it accepted or not. A list of names may be given to any settings. -/
inductive Obtained : Settings → Prop
  | default : Obtained {}
  | change {s : Settings} (h : Obtained s) (key value : String) :
      Obtained ((change key value).apply s).2
  | names (s : Settings) (value : String) : Obtained ((Settings.change "allowlist" value).apply s).2
  | ofPairs {pairs : List (String × String)} {s : Settings} (h : ofPairs pairs = .ok s) : Obtained s
  | ofJson {text : String} {s : Settings} (h : ofJson text = .ok s) : Obtained s

/-- The names were split from a text. -/
def Listed (s : Settings) : Prop := ∃ t, s.allowlist = splitNames t

theorem listed_default : Listed {} := ⟨[], rfl⟩

theorem listed_put {s : Settings} (h : s.Listed) {k : Key} {value : List Char} {v : k.Content}
    (hv : k.parse? value = some v) : (s.put k v).Listed := by
  by_cases hk : Key.allowlist = k
  · subst hk
    exact ⟨value, (Option.some.inj hv).symm⟩
  · have hsame : (s.put k v).allowlist = s.allowlist := content_put_of_ne s hk v
    rw [Listed, hsame]
    exact h

/-- A change leaves an allowlist that can be read from a text. -/
theorem listed_change {s : Settings} (h : s.Listed) (key value : String) :
    ((change key value).apply s).2.Listed := by
  by_cases haccepts : Accepts key value
  · obtain ⟨k, rfl, v, hv⟩ := haccepts
    rw [apply_change_of_parse? hv]
    exact listed_put h hv
  · obtain ⟨e, -, he⟩ := apply_change_of_not_accepts haccepts
    rw [he s]
    exact h

theorem listed_change_names (s : Settings) (value : String) :
    ((change "allowlist" value).apply s).2.Listed :=
  ⟨Text.trim value.toList, rfl⟩

/-- So does any sequence of changes from the defaults. -/
theorem LeadTo.listed {pairs : List (String × String)} {s : Settings} (h : LeadTo pairs {} s) :
    s.Listed := by
  have hnames := h .allowlist
  cases hlast : lastValue? .allowlist pairs with
  | none =>
    rw [hlast] at hnames
    exact ⟨[], hnames⟩
  | some value =>
    rw [hlast] at hnames
    exact ⟨_, (Option.some.inj hnames).symm⟩

/-- Validation changes nothing. -/
theorem eq_of_validate {s s' : Settings} (h : s.validate = .ok s') : s' = s := by
  have hcheck : ∀ {k : Key} {x : Float} {rest : Float → Except SettingsError Settings},
      (checkFraction k x >>= rest) = .ok s' → rest x = .ok s' := by
    intro k x rest hrest
    unfold checkFraction at hrest
    split at hrest
    next => exact hrest
    next => cases hrest
  have hthreads := hcheck (hcheck (hcheck (hcheck h)))
  split at hthreads
  next => cases hthreads
  next =>
    cases hthreads
    rfl

/-- The allowlist of a document that is read can be read from a text too. -/
theorem listed_of_ofDocument? {d : Document} {s : Settings} (h : ofDocument? d = some s) :
    s.Listed := by
  unfold ofDocument? at h
  obtain ⟨fields, -, h⟩ := Option.bind_eq_some_iff.mp h
  split at h
  next association interval incorrect missing refine names threads showChecks =>
    -- the names stand after four fractions and a flag, before the threads and another flag
    simp only [Option.bind_eq_bind, Option.bind_eq_some_iff, Option.pure_def,
      Option.some.injEq] at h
    obtain ⟨_, -, _, -, _, -, _, -, _, -, allowlist, hnames, _, -, _, -, rfl⟩ := h
    cases names with
    | none => exact ⟨[], (Option.some.inj hnames).symm⟩
    | some names =>
      obtain ⟨t, -, ht⟩ := Option.map_eq_some_iff.mp hnames
      exact ⟨t.toList, ht.symm⟩
  next => cases h

theorem listed_of_ofJson {text : String} {s : Settings} (h : ofJson text = .ok s) : s.Listed := by
  unfold ofJson at h
  split at h
  next settings hread =>
    obtain ⟨d, -, hd⟩ := Option.bind_eq_some_iff.mp hread
    rw [eq_of_validate h]
    exact listed_of_ofDocument? hd
  next => cases h

/-- Settings come by their names from texts only. -/
theorem Obtained.listed {s : Settings} (h : Obtained s) : s.Listed := by
  induction h with
  | default => exact listed_default
  | change _ key value ih => exact listed_change ih key value
  | names s value => exact listed_change_names s value
  | ofPairs h => exact (leadTo_of_ofPairs h).1.listed
  | ofJson h => exact listed_of_ofJson h

/-- A set of names comes back from its document if it comes back from its text. -/
theorem readNames?_writeNames (names : SortedSet String) :
    readNames? (writeNames names) = some (splitNames (joinNames names)) := by
  have htext : (writeNames names).asString? = some (String.ofList (joinNames names)) :=
    CodePoints.toString?_ofString _
  rw [readNames?, htext, Option.map_some, String.toList_ofList]

theorem proper_writeNames (names : SortedSet String) : (writeNames names).Proper :=
  .text (CodePoints.proper_ofString _)

/-- **Names survive being written.**

The names in a text are its parts between the commas, without blanks around them, as far as
anything is left of them. So none is empty, has a comma, or has a blank at an end, and they stand
in increasing order; listing them in a text and splitting that text gives the same set. The names
of settings that can come about are thus read back from the document that writes them, and from
its text, and the same functions are analysed before and after. -/
theorem names_survive_writing :
    (∀ t : List Char,
      (∀ name, name ∈ splitNames t ↔
        name ≠ "" ∧ ∃ part ∈ t.splitOn ',', Text.trim part = name.toList) ∧
      (∀ name ∈ splitNames t, name ≠ "" ∧ ',' ∉ name.toList ∧ Text.Trimmed name.toList) ∧
      (splitNames t).toList.Pairwise (fun a b => compare a b = .lt) ∧
      splitNames (joinNames (splitNames t)) = splitNames t) ∧
    ∀ s : Settings, Obtained s → ∃ names,
      readNames? (writeNames s.allowlist) = some names ∧
      (Document.read? (writeNames s.allowlist).compact).bind readNames? = some names ∧
      names = s.allowlist ∧
      ∀ name, ({ s with allowlist := names } : Settings).isAllowed name = s.isAllowed name := by
  have hback : ∀ t, splitNames (joinNames (splitNames t)) = splitNames t := fun t =>
    splitNames_joinNames fun _ => isName_of_mem_splitNames
  constructor
  · intro t
    refine ⟨fun name => ?_, fun name hname => ?_, (splitNames t).increasing, hback t⟩
    · rw [mem_splitNames, Text.split_eq_splitOn]
    · have hisName := isName_of_mem_splitNames hname
      exact ⟨hisName.ne_empty, hisName.no_comma, hisName.trimmed⟩
  · intro s hs
    obtain ⟨t, ht⟩ := hs.listed
    have hread : readNames? (writeNames s.allowlist) = some s.allowlist := by
      rw [readNames?_writeNames, ht, hback]
    refine ⟨s.allowlist, hread, ?_, rfl, fun _ => rfl⟩
    rw [Document.read?_compact (proper_writeNames _), Option.bind_some, hread]

/-- Settings whose names were given in no order, with blanks around and within them, twice, and
with nothing between two commas. -/
def untidyNames : Settings := ((change "allowlist" " get , set_all,, get,\tall of ").apply {}).2

/-- Three names are left, and they come back. -/
theorem untidyNames_survive :
    untidyNames.allowlist.toList = ["all of", "get", "set_all"] ∧
    ∃ names, readNames? (writeNames untidyNames.allowlist) = some names ∧
      names = untidyNames.allowlist ∧
      ({ untidyNames with allowlist := names } : Settings).isAllowed "get" = true := by
  obtain ⟨names, hread, -, hsame, hallowed⟩ :=
    names_survive_writing.2 untidyNames (.names {} " get , set_all,, get,\tall of ")
  refine ⟨by decide +kernel, names, hread, hsame, ?_⟩
  rw [hallowed]
  decide +kernel

end Settings

end ErrorReturns
