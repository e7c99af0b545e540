import ErrorReturns.Document.Printer
import ErrorReturns.Document.Reader
import Mathlib.Data.List.Basic

/-!
# What is written is read

Reading a document that has been written gives the document back. Each part is read by a function of
its own, which takes the part off the front of a text and leaves the rest, and so the statement for
each part is about the written part with anything after it that cannot be taken for more of it. Only
numbers have no end of their own: after a number there must be no digit, point or exponent mark
(`Document.EndsNumber`), and between the parts of a document there is none.

Not every value of the types can be written. The digits of a number have to be digits, and the code
points of a text have to be in range; halves of surrogate pairs are, because they are written as
escapes. Such documents are `Document.Proper`, and all of them come back (`Document.read?_compact`).
-/

namespace ErrorReturns

/-! ## Digits -/

namespace Decimal

/-- A text of digits, and at least one. -/
structure Figures (s : List Char) : Prop where
  ne_nil : s ≠ []
  isDigit : ∀ c ∈ s, c.isDigit = true

/-- A text that does not begin with a digit. -/
def NoDigit (s : List Char) : Prop := ∀ c ∈ s.head?, c.isDigit = false

/-- **The digits at the front of a text** are read up to the first other character. -/
theorem readDigits_append {s rest : List Char} (hs : ∀ c ∈ s, c.isDigit = true)
    (hrest : NoDigit rest) : readDigits (s ++ rest) = (s, rest) := by
  rw [readDigits, List.takeWhile_append_of_pos hs, List.dropWhile_append_of_pos hs]
  cases rest with
  | nil => rw [List.takeWhile_nil, List.dropWhile_nil, List.append_nil]
  | cons c rest =>
    have hc : ¬ c.isDigit = true := by simp [hrest c rfl]
    rw [List.takeWhile_cons_of_neg hc, List.dropWhile_cons_of_neg hc, List.append_nil]

theorem figures_toDigits (n : Nat) : Figures (Nat.toDigits 10 n) :=
  ⟨List.ne_nil_of_length_pos Nat.length_toDigits_pos,
    fun _ => Nat.isDigit_of_mem_toDigits (by decide) (by decide)⟩

@[simp] theorem natOfDigits_toDigits (n : Nat) : natOfDigits (Nat.toDigits 10 n) = n :=
  Nat.ofDigitChars_ten_toDigits

/-- Only zero is written with a zero in front. -/
theorem toDigits_ne_zero_cons (n : Nat) (c : Char) (s : List Char) :
    Nat.toDigits 10 n ≠ '0' :: c :: s := by
  have hzero : ∀ m, 0 < m → (Nat.toDigits 10 m).head? ≠ some '0' := by
    intro m
    induction m using Nat.base_induction 10 (by decide) with
    | single m hm =>
      intro hpos
      rw [Nat.toDigits_of_lt_base hm]
      simpa using Nat.ne_of_gt hpos
    | digit m k hk hm ih =>
      intro _
      rw [← Nat.toDigits_append_toDigits (by decide) hm hk,
        List.head?_append_of_ne_nil _ (figures_toDigits m).ne_nil]
      exact ih hm
  intro h
  cases Nat.eq_zero_or_pos n with
  | inl h0 =>
    subst h0
    cases h
  | inr hpos =>
    refine hzero n hpos ?_
    rw [h]
    rfl

end Decimal

/-! ## Numbers -/

/-- **A number that can be written**: digits where digits should be, no zero in front of others, and
at most a sign before the exponent. -/
structure Numeral.Proper (n : Numeral) : Prop where
  whole : Decimal.Figures n.whole
  whole_ne : ∀ c s, n.whole ≠ '0' :: c :: s
  fraction : ∀ c ∈ n.fraction, c.isDigit = true
  exponent : ∀ e ∈ n.exponent, ∃ sign digits, e = sign ++ digits ∧ sign ∈ [[], ['+'], ['-']] ∧
    Decimal.Figures digits

theorem Numeral.proper_ofInt (v : Int) : (Numeral.ofInt v).Proper where
  whole := Decimal.figures_toDigits v.natAbs
  whole_ne := Decimal.toDigits_ne_zero_cons v.natAbs
  fraction := fun _ h => absurd h List.not_mem_nil
  exponent := fun _ h => absurd h (by simp [Numeral.ofInt])

namespace Document

open Decimal (Figures NoDigit readDigits readDigits_append)

/-- **What may follow a number**: nothing that could belong to it. -/
def EndsNumber (s : List Char) : Prop :=
  ∀ c ∈ s.head?, c.isDigit = false ∧ c ≠ '.' ∧ c ≠ 'e' ∧ c ≠ 'E'

theorem EndsNumber.noDigit {s : List Char} (h : EndsNumber s) : NoDigit s := fun c hc => (h c hc).1

theorem endsNumber_nil : EndsNumber [] := fun _ h => by cases h

theorem readWhole_append {s rest : List Char} (hs : Figures s) (hzero : ∀ c t, s ≠ '0' :: c :: t)
    (hrest : NoDigit rest) : readWhole (s ++ rest) = some (s, rest) := by
  unfold readWhole
  rw [readDigits_append hs.isDigit hrest]
  split
  case h_1 heq => exact absurd (congrArg Prod.fst heq) hs.ne_nil
  case h_2 heq => exact absurd (congrArg Prod.fst heq) (hzero _ _)
  case h_3 heq => exact congrArg some heq.symm

theorem readFraction_of_head_ne {rest : List Char} (h : ∀ c ∈ rest.head?, c ≠ '.') :
    readFraction rest = some ([], rest) := by
  unfold readFraction
  split
  · exact absurd rfl (h '.' rfl)
  · rfl

theorem readFraction_cons {s rest : List Char} (hs : Figures s) (hrest : NoDigit rest) :
    readFraction ('.' :: (s ++ rest)) = some (s, rest) := by
  rw [readFraction, readDigits_append hs.isDigit hrest]
  split
  case h_1 heq => exact absurd (congrArg Prod.fst heq) hs.ne_nil
  case h_2 heq => exact congrArg some heq.symm

theorem readExponent_of_endsNumber {rest : List Char} (h : EndsNumber rest) :
    readExponent rest = some (none, rest) := by
  cases rest with
  | nil => rfl
  | cons c rest =>
    obtain ⟨-, -, he, hE⟩ := h c rfl
    rw [readExponent, if_neg (not_or.mpr ⟨he, hE⟩)]

/-- The sign of an exponent is read up to the first digit. -/
theorem readExponentSign_append {sign s : List Char} (hsign : sign ∈ [[], ['+'], ['-']])
    (hs : Figures s) (rest : List Char) :
    readExponentSign (sign ++ (s ++ rest)) = (sign, s ++ rest) := by
  simp only [List.mem_cons, List.not_mem_nil, or_false] at hsign
  rcases hsign with rfl | rfl | rfl
  · obtain ⟨c, t, rfl⟩ := List.exists_cons_of_ne_nil hs.ne_nil
    have hc : c.isDigit = true := hs.isDigit c List.mem_cons_self
    unfold readExponentSign
    split
    case h_1 heq =>
      rw [(List.cons.inj heq).1] at hc
      cases hc
    case h_2 heq =>
      rw [(List.cons.inj heq).1] at hc
      cases hc
    case h_3 => rfl
  · rfl
  · rfl

/-- An exponent is read with its sign and all its digits. -/
theorem readExponent_cons {sign s rest : List Char} (hsign : sign ∈ [[], ['+'], ['-']])
    (hs : Figures s) (hrest : NoDigit rest) :
    readExponent ('e' :: (sign ++ s ++ rest)) = some (some (sign ++ s), rest) := by
  rw [readExponent, if_pos (Or.inl rfl), List.append_assoc]
  dsimp only
  rw [readExponentSign_append hsign hs, readDigits_append hs.isDigit hrest]
  split
  case h_1 heq => exact absurd (congrArg Prod.fst heq) hs.ne_nil
  case h_2 heq =>
    obtain ⟨rfl, rfl⟩ := Prod.mk.inj heq
    rfl

/-- The written fraction of a number, with its point. -/
def fractionText (n : Numeral) : List Char := if n.fraction = [] then [] else '.' :: n.fraction

/-- The written exponent of a number, with its mark. -/
def exponentText (n : Numeral) : List Char := n.exponent.elim [] ('e' :: ·)

theorem render_eq (n : Numeral) : n.render =
    (if n.negative then ['-'] else []) ++ (n.whole ++ (fractionText n ++ exponentText n)) := by
  obtain ⟨negative, whole, fraction, exponent⟩ := n
  cases fraction <;> cases exponent <;> simp [Numeral.render, fractionText, exponentText]

section Number

variable (n : Numeral) {rest : List Char} (hrest : EndsNumber rest)
include hrest

/-- After the fraction comes an exponent mark, or what follows the number. -/
theorem head?_exponentText_append :
    ∀ c ∈ (exponentText n ++ rest).head?, c.isDigit = false ∧ c ≠ '.' := by
  intro c hc
  unfold exponentText at hc
  cases he : n.exponent with
  | none =>
    rw [he] at hc
    exact ⟨(hrest c hc).1, (hrest c hc).2.1⟩
  | some e =>
    rw [he] at hc
    obtain rfl : 'e' = c := Option.some.inj hc
    decide

theorem noDigit_fractionText : NoDigit (fractionText n ++ (exponentText n ++ rest)) := by
  intro c hc
  unfold fractionText at hc
  split at hc
  · exact (head?_exponentText_append n hrest c hc).1
  · obtain rfl : '.' = c := Option.some.inj hc
    rfl

variable {n} (h : n.Proper)
include h

@[simp] theorem readExponent_exponentText :
    readExponent (exponentText n ++ rest) = some (n.exponent, rest) := by
  unfold exponentText
  cases he : n.exponent with
  | none => exact readExponent_of_endsNumber hrest
  | some e =>
    obtain ⟨sign, s, rfl, hsign, hs⟩ := h.exponent e he
    exact readExponent_cons hsign hs hrest.noDigit

/-- A fraction is read back, and nothing of the exponent after it. -/
@[simp] theorem readFraction_fractionText :
    readFraction (fractionText n ++ (exponentText n ++ rest)) =
      some (n.fraction, exponentText n ++ rest) := by
  have hhead := head?_exponentText_append n hrest
  unfold fractionText
  split
  case isTrue hnil =>
    rw [hnil]
    exact readFraction_of_head_ne fun c hc => (hhead c hc).2
  case isFalse hne => exact readFraction_cons ⟨hne, h.fraction⟩ fun c hc => (hhead c hc).1

/-- **A written number is read.** -/
@[simp] theorem readNumber_render : readNumber (n.render ++ rest) = some (n, rest) := by
  -- each part is read up to the first character that cannot belong to it, which the next part, or
  -- `rest`, starts with
  have hwhole : readWhole (n.whole ++ (fractionText n ++ (exponentText n ++ rest))) =
      some (n.whole, fractionText n ++ (exponentText n ++ rest)) :=
    readWhole_append h.whole h.whole_ne (noDigit_fractionText n hrest)
  have hfraction := readFraction_fractionText hrest h
  have hexponent := readExponent_exponentText hrest h
  rw [render_eq, List.append_assoc, List.append_assoc, List.append_assoc]
  unfold readNumber
  cases hneg : n.negative with
  | true =>
    simp only [if_true, List.cons_append, List.nil_append, hwhole, hfraction, hexponent,
      Option.bind_eq_bind, Option.bind_some]
    rw [← hneg]
    rfl
  | false =>
    -- without a sign the text starts with a digit, so the reader does not take it for one with a
    -- sign
    obtain ⟨c, s, hs⟩ := List.exists_cons_of_ne_nil h.whole.ne_nil
    rw [hs] at hwhole ⊢
    dsimp only
    split
    case h_1 heq =>
      have hdigit := h.whole.isDigit c (hs ▸ List.mem_cons_self)
      rw [(List.cons.inj heq).1] at hdigit
      cases hdigit
    case h_2 =>
      simp only [Bool.false_eq_true, if_false, List.nil_append, hwhole, hfraction, hexponent,
        Option.bind_eq_bind, Option.bind_some]
      rw [← hneg, ← hs]
      rfl

end Number

/-! ## Texts -/

theorem hexValue?_digitChar {k : Nat} (h : k < 16) : hexValue? k.digitChar = some k := by
  revert k
  decide

/-- Digits that are missing in front are zeros, which the quotients are as well. -/
theorem hexDigits_eq {n : Nat} (h : n < 0x10000) :
    hexDigits n = [(n / 16 / 16 / 16).digitChar, (n / 16 / 16 % 16).digitChar,
      (n / 16 % 16).digitChar, (n % 16).digitChar] := by
  have hdigits : ∀ m, Nat.toDigits 16 m =
      if m < 16 then [m.digitChar] else Nat.toDigits 16 (m / 16) ++ [(m % 16).digitChar] :=
    fun m => Nat.toDigits_eq_if (by decide)
  unfold hexDigits
  rw [hdigits n]
  split
  case isTrue h1 =>
    rw [Nat.mod_eq_of_lt h1, Nat.div_eq_of_lt h1]
    rfl
  rw [hdigits (n / 16)]
  split
  case isTrue h2 =>
    rw [Nat.mod_eq_of_lt h2, Nat.div_eq_of_lt h2]
    rfl
  rw [hdigits (n / 16 / 16)]
  split
  case isTrue h3 =>
    rw [Nat.mod_eq_of_lt h3, Nat.div_eq_of_lt h3]
    rfl
  rw [hdigits (n / 16 / 16 / 16), if_pos (by omega)]
  rfl

theorem exists_hexDigits_eq {n : Nat} (h : n < 0x10000) :
    ∃ a b c d, hexDigits n = [a, b, c, d] ∧ hex4? a b c d = some n := by
  refine ⟨_, _, _, _, hexDigits_eq h, ?_⟩
  rw [hex4?, hexValue?_digitChar (by omega), hexValue?_digitChar (by omega),
    hexValue?_digitChar (by omega), hexValue?_digitChar (by omega)]
  refine congrArg some ?_
  omega

theorem readText_hex {a b c d : Char} {n : Nat} {s rest : List Char} {t : CodePoints}
    (hn : hex4? a b c d = some n) (h : readText s = some (t, rest)) :
    readText ('\\' :: 'u' :: a :: b :: c :: d :: s) = some (n :: t, rest) := by
  rw [readText, hn, h]
  rfl

theorem readText_short {c : Char} {n : Nat} {s rest : List Char} {t : CodePoints}
    (hn : shortEscape? c = some n) (h : readText s = some (t, rest)) :
    readText ('\\' :: c :: s) = some (n :: t, rest) := by
  have hc : c ≠ 'u' := by
    rintro rfl
    cases hn
  rw [readText.eq_4 c s fun _ _ _ _ _ hu _ => hc hu, hn, h]
  rfl

theorem readText_plain {c : Char} {s rest : List Char} {t : CodePoints} (hquote : c ≠ '"')
    (hslash : c ≠ '\\') (hc : 0x20 ≤ c.toNat) (h : readText s = some (t, rest)) :
    readText (c :: s) = some (c.toNat :: t, rest) := by
  rw [readText.eq_5 c s hquote (fun _ _ _ _ _ hu _ => hslash hu) fun _ _ hu _ => hslash hu,
    if_neg (not_or.mpr ⟨hslash, Nat.not_lt.mpr hc⟩), h]
  rfl

/-- **How a code point is written**: as a short escape, as an escape with digits, or as it is. -/
theorem renderPoint_cases (n : Nat) :
    (∃ c, shortEscape? c = some n ∧ renderPoint n = ['\\', c]) ∨
    (n < 0x10000 ∧ renderPoint n = '\\' :: 'u' :: hexDigits n) ∨
    (0x20 ≤ n ∧ n ≠ 0x22 ∧ n ≠ 0x5C ∧ CodePoints.isHigh n = false ∧ CodePoints.isLow n = false ∧
      renderPoint n = [Char.ofNat n]) := by
  by_cases hshort : n ∈ [0x22, 0x5C, 0x08, 0x0C, 0x0A, 0x0D, 0x09]
  · refine Or.inl ?_
    simp only [List.mem_cons, List.not_mem_nil, or_false] at hshort
    rcases hshort with rfl | rfl | rfl | rfl | rfl | rfl | rfl
    exacts [⟨'"', rfl, rfl⟩, ⟨'\\', rfl, rfl⟩, ⟨'b', rfl, rfl⟩, ⟨'f', rfl, rfl⟩, ⟨'n', rfl, rfl⟩,
      ⟨'r', rfl, rfl⟩, ⟨'t', rfl, rfl⟩]
  · simp only [List.mem_cons, List.not_mem_nil, or_false, not_or] at hshort
    obtain ⟨hquote, hslash, hb, hf, hn, hr, ht⟩ := hshort
    refine Or.inr ?_
    unfold renderPoint
    rw [if_neg hquote, if_neg hslash, if_neg hb, if_neg hf, if_neg hn, if_neg hr, if_neg ht]
    by_cases hescape : n < 0x20 ∨ CodePoints.isHigh n ∨ CodePoints.isLow n
    · refine Or.inl ⟨?_, if_pos hescape⟩
      simp only [CodePoints.isHigh, CodePoints.isLow, Bool.and_eq_true, decide_eq_true_iff]
        at hescape
      omega
    · rw [if_neg hescape]
      simp only [not_or, Bool.not_eq_true, Nat.not_lt] at hescape
      exact Or.inr ⟨hescape.1, hquote, hslash, hescape.2.1, hescape.2.2, rfl⟩

/-- A code point that is no half of a surrogate pair is that of a character. -/
theorem toNat_ofNat_of_scalar {n : Nat} (hn : n < 0x110000) (hhigh : CodePoints.isHigh n = false)
    (hlow : CodePoints.isLow n = false) : (Char.ofNat n).toNat = n := by
  simp only [CodePoints.isHigh, CodePoints.isLow, Bool.and_eq_false_iff, decide_eq_false_iff_not]
    at hhigh hlow
  have hvalid : n.isValidChar := by
    rw [Nat.isValidChar]
    omega
  rw [Char.ofNat, dif_pos hvalid]
  rfl

/-- A code point is read back from the way it is written, escaped or not. -/
theorem readText_renderPoint {n : Nat} (hn : n < 0x110000) {s rest : List Char} {t : CodePoints}
    (h : readText s = some (t, rest)) : readText (renderPoint n ++ s) = some (n :: t, rest) := by
  obtain ⟨c, hc, hwritten⟩ | ⟨hlt, hwritten⟩ | ⟨hle, hquote, hslash, hhigh, hlow, hwritten⟩ :=
    renderPoint_cases n
  · rw [hwritten]
    exact readText_short hc h
  · obtain ⟨a, b, c, d, hdigits, hvalue⟩ := exists_hexDigits_eq hlt
    rw [hwritten, hdigits]
    exact readText_hex hvalue h
  · have hnat := toNat_ofNat_of_scalar hn hhigh hlow
    have hplain : ∀ c : Char, n ≠ c.toNat → Char.ofNat n ≠ c := fun c hne heq =>
      hne (heq ▸ hnat).symm
    rw [hwritten]
    have hread := readText_plain (hplain '"' hquote) (hplain '\\' hslash) (hnat.symm ▸ hle) h
    rwa [hnat] at hread

end Document

/-- **A text that can be written**: code points in range. -/
def CodePoints.Proper (s : CodePoints) : Prop := ∀ n ∈ s, n < 0x110000

namespace Document

/-- **A written text is read**, after its opening quotation mark. -/
theorem readText_flatMap {s : CodePoints} (h : s.Proper) (rest : List Char) :
    readText (s.flatMap renderPoint ++ '"' :: rest) = some (s, rest) := by
  induction s with
  | nil => rfl
  | cons n s ih =>
    obtain ⟨hn, hs⟩ := List.forall_mem_cons.mp h
    rw [List.flatMap_cons, List.append_assoc]
    exact readText_renderPoint hn (ih hs)

/-! ## Documents -/

theorem skip_cons {c : Char} (h : isSpace c = false) (s : List Char) : skip (c :: s) = c :: s := by
  rw [skip, List.dropWhile_cons, h]
  rfl

/-- **A document that can be written**: all of its numbers and texts can be. -/
inductive Proper : Document → Prop
  | null : Proper .null
  | bool (b : Bool) : Proper (.bool b)
  | number {n : Numeral} (h : n.Proper) : Proper (.number n)
  | text {s : CodePoints} (h : s.Proper) : Proper (.text s)
  | array {items : List Document} (h : ∀ d ∈ items, Proper d) : Proper (.array items)
  | object {fields : List (CodePoints × Document)} (hkeys : ∀ f ∈ fields, f.1.Proper)
      (hvalues : ∀ f ∈ fields, Proper f.2) : Proper (.object fields)

/-- A character that the text of a document begins with: no blank, and no bracket that closes. -/
def Opens (c : Char) : Prop := isSpace c = false ∧ c ≠ ']' ∧ c ≠ '\x7d'

instance (c : Char) : Decidable (Opens c) := inferInstanceAs (Decidable (_ ∧ _))

/-- A number begins with a sign or a digit. -/
theorem exists_render_eq_cons {n : Numeral} (h : n.Proper) :
    ∃ c s, n.render = c :: s ∧ (c = '-' ∨ c.isDigit = true) := by
  rw [render_eq]
  cases n.negative with
  | true => exact ⟨'-', _, rfl, Or.inl rfl⟩
  | false =>
    obtain ⟨c, s, hs⟩ := List.exists_cons_of_ne_nil h.whole.ne_nil
    rw [hs]
    exact ⟨c, _, rfl, Or.inr (h.whole.isDigit c (hs ▸ List.mem_cons_self))⟩

/-- No other part of a document begins like a number. -/
theorem ne_of_isDigit {c : Char} (h : c = '-' ∨ c.isDigit = true) {other : Char}
    (hother : other ≠ '-') (hdigit : other.isDigit = false) : c ≠ other := by
  rintro rfl
  rcases h with h | h
  · exact hother h
  · rw [hdigit] at h
    cases h

theorem isSpace_eq_false_of_isDigit {c : Char} (h : c = '-' ∨ c.isDigit = true) :
    isSpace c = false := by
  have hne : ∀ other : Char, other ≠ '-' → other.isDigit = false → c ≠ other := fun _ =>
    ne_of_isDigit h
  simp [isSpace, hne ' ' (by decide) rfl, hne '\n' (by decide) rfl, hne '\t' (by decide) rfl,
    hne '\r' (by decide) rfl]

@[simp] theorem compact_number (n : Numeral) : (number n).compact = n.render := rfl

@[simp] theorem compact_text (s : CodePoints) :
    (text s).compact = '"' :: (s.flatMap renderPoint ++ ['"']) := rfl

@[simp] theorem compact_array (items : List Document) :
    (array items).compact = '[' :: (compactItems items ++ [']']) := rfl

@[simp] theorem compact_object (fields : List (CodePoints × Document)) :
    (object fields).compact = '\x7b' :: (compactFields fields ++ ['\x7d']) := rfl

theorem compactItems_cons_cons (item next : Document) (items : List Document) :
    compactItems (item :: next :: items) =
      item.compact ++ ',' :: compactItems (next :: items) := rfl

/-- Every document is written with at least one character, which opens a value. -/
theorem exists_compact_eq_cons {d : Document} (h : d.Proper) :
    ∃ c s, d.compact = c :: s ∧ Opens c := by
  cases h with
  | null => exact ⟨'n', _, rfl, by decide⟩
  | bool b => cases b with
    | true => exact ⟨'t', _, rfl, by decide⟩
    | false => exact ⟨'f', _, rfl, by decide⟩
  | number hn =>
    obtain ⟨c, s, hs, hc⟩ := exists_render_eq_cons hn
    exact ⟨c, s, hs, isSpace_eq_false_of_isDigit hc, ne_of_isDigit hc (by decide) rfl,
      ne_of_isDigit hc (by decide) rfl⟩
  | text => exact ⟨'"', _, rfl, by decide⟩
  | array => exact ⟨'[', _, rfl, by decide⟩
  | object => exact ⟨'\x7b', _, rfl, by decide⟩

/-- **A document is read back** from its text, whatever follows, with a depth of its length. -/
def ReadsBack (d : Document) : Prop :=
  ∀ (depth : Nat) (rest : List Char), d.compact.length ≤ depth → EndsNumber rest →
    readValue depth (d.compact ++ rest) = some (d, rest)

/-- What begins like a number is read as one. -/
theorem readValue_number {depth : Nat} {c : Char} {s rest : List Char} {n : Numeral}
    (hc : c = '-' ∨ c.isDigit = true) (h : readNumber (c :: s) = some (n, rest)) :
    readValue (depth + 1) (c :: s) = some (.number n, rest) := by
  have hne : ∀ other : Char, other ≠ '-' → other.isDigit = false → c ≠ other := fun _ =>
    ne_of_isDigit hc
  rw [readValue, skip_cons (isSpace_eq_false_of_isDigit hc)]
  split
  case h_1 heq => exact absurd (List.cons.inj heq).1 (hne 'n' (by decide) rfl)
  case h_2 heq => exact absurd (List.cons.inj heq).1 (hne 't' (by decide) rfl)
  case h_3 heq => exact absurd (List.cons.inj heq).1 (hne 'f' (by decide) rfl)
  case h_4 heq => exact absurd (List.cons.inj heq).1 (hne '"' (by decide) rfl)
  case h_5 heq => exact absurd (List.cons.inj heq).1 (hne '[' (by decide) rfl)
  case h_6 heq => exact absurd (List.cons.inj heq).1 (hne '\x7b' (by decide) rfl)
  case h_7 =>
    rw [h]
    rfl

theorem readValue_text {depth : Nat} {s rest : List Char} {t : CodePoints}
    (h : readText s = some (t, rest)) :
    readValue (depth + 1) ('"' :: s) = some (.text t, rest) := by
  have hquote : isSpace '"' = false := rfl
  simp only [readValue, skip_cons hquote, h]
  rfl

/-- An array is read if its items are. -/
theorem readValue_array {depth : Nat} {c : Char} (hc : Opens c) {s rest : List Char}
    {items : List Document} (h : readItems depth (c :: s) = some (items, rest)) :
    readValue (depth + 1) ('[' :: c :: s) = some (.array items, rest) := by
  have hbracket : isSpace '[' = false := rfl
  simp only [readValue, skip_cons hbracket, skip_cons hc.1]
  split
  case h_1 heq => exact absurd (List.cons.inj heq).1 hc.2.1
  case h_2 =>
    rw [h]
    rfl

/-- An object is read if its fields are. -/
theorem readValue_object {depth : Nat} {c : Char} (hc : Opens c) {s rest : List Char}
    {fields : List (CodePoints × Document)} (h : readFields depth (c :: s) = some (fields, rest)) :
    readValue (depth + 1) ('\x7b' :: c :: s) = some (.object fields, rest) := by
  have hbrace : isSpace '\x7b' = false := rfl
  simp only [readValue, skip_cons hbrace, skip_cons hc.1]
  split
  case h_1 heq => exact absurd (List.cons.inj heq).1 hc.2.2
  case h_2 =>
    rw [h]
    rfl

theorem endsNumber_cons {c : Char} (h : c = ',' ∨ c = ']' ∨ c = '\x7d') (s : List Char) :
    EndsNumber (c :: s) := by
  intro x hx
  obtain rfl : c = x := Option.some.inj hx
  rcases h with rfl | rfl | rfl <;> decide

theorem readItems_last {depth : Nat} {s rest : List Char} {item : Document}
    (h : readValue depth s = some (item, ']' :: rest)) :
    readItems (depth + 1) s = some ([item], rest) := by
  have hspace : isSpace ']' = false := rfl
  simp only [readItems, h, Option.bind_eq_bind, Option.bind_some, skip_cons hspace]
  rfl

theorem readItems_next {depth : Nat} {s more rest : List Char} {item : Document}
    {items : List Document} (h : readValue depth s = some (item, ',' :: more))
    (hmore : readItems depth more = some (items, rest)) :
    readItems (depth + 1) s = some (item :: items, rest) := by
  have hspace : isSpace ',' = false := rfl
  simp only [readItems, h, Option.bind_eq_bind, Option.bind_some, skip_cons hspace, hmore]
  rfl

/-- **Written items are read** up to the closing bracket. -/
theorem readItems_compactItems {items : List Document} (hne : items ≠ [])
    (h : ∀ d ∈ items, ReadsBack d) {depth : Nat} (hdepth : (compactItems items).length < depth)
    (rest : List Char) :
    readItems depth (compactItems items ++ ']' :: rest) = some (items, rest) := by
  induction items generalizing depth with
  | nil => exact absurd rfl hne
  | cons item items ih =>
    obtain ⟨hitem, hitems⟩ := List.forall_mem_cons.mp h
    obtain ⟨depth, rfl⟩ := Nat.exists_eq_add_one_of_ne_zero (Nat.ne_zero_of_lt hdepth)
    cases items with
    | nil =>
      exact readItems_last
        (hitem depth _ (Nat.le_of_lt_succ hdepth) (endsNumber_cons (by decide) rest))
    | cons next items =>
      rw [compactItems_cons_cons, List.length_append, List.length_cons] at hdepth
      rw [compactItems_cons_cons, List.append_assoc]
      refine readItems_next (hitem depth _ (by omega) (endsNumber_cons (by decide) _)) ?_
      exact ih (List.cons_ne_nil next items) hitems (by omega)

/-- The last field is followed by the end of the object. -/
theorem readFields_last {depth : Nat} {s value rest : List Char} {key : CodePoints} {d : Document}
    (hkey : readText s = some (key, ':' :: value))
    (h : readValue depth value = some (d, '\x7d' :: rest)) :
    readFields (depth + 1) ('"' :: s) = some ([(key, d)], rest) := by
  have hquote : isSpace '"' = false := rfl
  have hcolon : isSpace ':' = false := rfl
  have hspace : isSpace '\x7d' = false := rfl
  simp only [readFields, skip_cons hquote, hkey, Option.bind_eq_bind, Option.bind_some,
    skip_cons hcolon, h, skip_cons hspace]
  rfl

/-- Any other field is followed by the next one. -/
theorem readFields_next {depth : Nat} {s value more rest : List Char} {key : CodePoints}
    {d : Document} {fields : List (CodePoints × Document)}
    (hkey : readText s = some (key, ':' :: value))
    (h : readValue depth value = some (d, ',' :: more))
    (hmore : readFields depth more = some (fields, rest)) :
    readFields (depth + 1) ('"' :: s) = some ((key, d) :: fields, rest) := by
  have hquote : isSpace '"' = false := rfl
  have hcolon : isSpace ':' = false := rfl
  have hspace : isSpace ',' = false := rfl
  simp only [readFields, skip_cons hquote, hkey, Option.bind_eq_bind, Option.bind_some,
    skip_cons hcolon, h, skip_cons hspace, hmore]
  rfl

/-- **Written fields are read** up to the closing brace. -/
theorem readFields_compactFields {fields : List (CodePoints × Document)} (hne : fields ≠ [])
    (hkeys : ∀ f ∈ fields, f.1.Proper) (h : ∀ f ∈ fields, ReadsBack f.2) {depth : Nat}
    (hdepth : (compactFields fields).length < depth) (rest : List Char) :
    readFields depth (compactFields fields ++ '\x7d' :: rest) = some (fields, rest) := by
  induction fields generalizing depth with
  | nil => exact absurd rfl hne
  | cons field fields ih =>
    obtain ⟨key, value⟩ := field
    obtain ⟨hkey, hkeys⟩ := List.forall_mem_cons.mp hkeys
    obtain ⟨(hvalue : ReadsBack value), hvalues⟩ := List.forall_mem_cons.mp h
    -- the text is longer than that of each value in it, so the depth covers all of them
    obtain ⟨depth, rfl⟩ := Nat.exists_eq_add_one_of_ne_zero (Nat.ne_zero_of_lt hdepth)
    cases fields with
    | nil =>
      have htext : compactFields [(key, value)] = renderText key ++ ':' :: value.compact := rfl
      rw [htext, List.length_append, List.length_cons] at hdepth
      rw [htext, renderText]
      simp only [List.append_assoc, List.cons_append, List.nil_append]
      exact readFields_last (readText_flatMap hkey _)
        (hvalue depth _ (by omega) (endsNumber_cons (by decide) rest))
    | cons next fields =>
      have htext : compactFields ((key, value) :: next :: fields) =
          renderText key ++ ':' :: value.compact ++ ',' :: compactFields (next :: fields) := rfl
      rw [htext, List.length_append, List.length_append, List.length_cons, List.length_cons]
        at hdepth
      rw [htext, renderText]
      simp only [List.append_assoc, List.cons_append, List.nil_append]
      refine readFields_next (readText_flatMap hkey _)
        (hvalue depth _ (by omega) (endsNumber_cons (by decide) _)) ?_
      exact ih (List.cons_ne_nil next fields) hkeys hvalues (by omega)

theorem exists_compactItems_eq_cons {item : Document} (h : item.Proper)
    (items : List Document) : ∃ c s, compactItems (item :: items) = c :: s ∧ Opens c := by
  obtain ⟨c, s, hs, hc⟩ := exists_compact_eq_cons h
  cases items with
  | nil => exact ⟨c, s, hs, hc⟩
  | cons next items =>
    rw [compactItems_cons_cons, hs]
    exact ⟨c, _, rfl, hc⟩

theorem exists_compactFields_eq_cons (field : CodePoints × Document)
    (fields : List (CodePoints × Document)) :
    ∃ s, compactFields (field :: fields) = '"' :: s := by
  cases fields with
  | nil => exact ⟨_, rfl⟩
  | cons next fields => exact ⟨_, rfl⟩

/-- The text of a document is not empty, so there is always a first level to read. -/
theorem Proper.readsBack_of_succ {d : Document} (h : d.Proper)
    (hsucc : ∀ (depth : Nat) (rest : List Char), d.compact.length ≤ depth + 1 →
      EndsNumber rest → readValue (depth + 1) (d.compact ++ rest) = some (d, rest)) :
    ReadsBack d := by
  intro depth rest hdepth hrest
  obtain ⟨c, s, hs, -⟩ := exists_compact_eq_cons h
  have hpos : 0 < d.compact.length := by
    rw [hs]
    exact Nat.zero_lt_succ _
  obtain ⟨depth, rfl⟩ := Nat.exists_eq_add_one_of_ne_zero
    (Nat.ne_of_gt (Nat.lt_of_lt_of_le hpos hdepth))
  exact hsucc depth rest hdepth hrest

/-- **What is written is read back**, by the structure of the document. -/
theorem Proper.readsBack {d : Document} (h : d.Proper) : ReadsBack d := by
  induction h with
  | null => exact null.readsBack_of_succ fun _ _ _ _ => rfl
  | bool b =>
    refine (bool b).readsBack_of_succ fun _ _ _ _ => ?_
    cases b with
    | true => rfl
    | false => rfl
  | number h =>
    refine (number h).readsBack_of_succ fun depth rest _ hrest => ?_
    have hread := readNumber_render hrest h
    obtain ⟨c, s, hs, hc⟩ := exists_render_eq_cons h
    rw [hs] at hread
    rw [compact_number, hs]
    exact readValue_number hc hread
  | text h =>
    refine (text h).readsBack_of_succ fun depth rest _ _ => ?_
    rw [compact_text, List.cons_append, List.append_assoc]
    exact readValue_text (readText_flatMap h rest)
  -- an array and an object spend one unit of depth on their brackets, and what is left covers the
  -- members; the first character shows that the list is not the empty one
  | @array items h ih =>
    refine (array h).readsBack_of_succ fun depth rest hdepth _ => ?_
    cases items with
    | nil => rfl
    | cons item items =>
      rw [compact_array, List.length_cons, List.length_append, List.length_singleton] at hdepth
      have hitems := readItems_compactItems (List.cons_ne_nil item items) ih
        (show _ < depth by omega) rest
      obtain ⟨c, s, hs, hc⟩ := exists_compactItems_eq_cons (h item List.mem_cons_self) items
      rw [hs] at hitems
      rw [compact_array, hs, List.cons_append, List.append_assoc]
      exact readValue_array hc hitems
  | @object fields hkeys h ih =>
    refine (object hkeys h).readsBack_of_succ fun depth rest hdepth _ => ?_
    cases fields with
    | nil => rfl
    | cons field fields =>
      rw [compact_object, List.length_cons, List.length_append, List.length_singleton] at hdepth
      have hfields := readFields_compactFields (List.cons_ne_nil field fields) hkeys ih
        (show _ < depth by omega) rest
      obtain ⟨s, hs⟩ := exists_compactFields_eq_cons field fields
      rw [hs] at hfields
      rw [compact_object, hs, List.cons_append, List.append_assoc]
      exact readValue_object (by decide) hfields

/-- **A document is what its text is read as.** -/
theorem read?_compact {d : Document} (h : d.Proper) : read? d.compact = some d := by
  have hread := h.readsBack (d.compact.length + 1) [] (Nat.le_succ _) endsNumber_nil
  rw [List.append_nil] at hread
  rw [read?, hread]
  rfl

end Document

end ErrorReturns
