import Forge.Tools.CalculatorParse
import Mathlib.Data.Rat.Defs
import Mathlib.Algebra.Order.Ring.Rat

/-! # Calculator — Numbers That Are Not Numbers

  `parse_number` (`tools/builtin/calculator.h`) takes a longer text than
  `std::stod` converts: a second point, or an exponent letter without
  digits, is in the text and not in the value.

  - `isLiteral`, `literalStod`: complete decimal literals, and a
    conversion of the longest one in front;
  - `logged`: the same calculator, which remembers the texts it converts;
  - `twoPoints`, `bareExponent`: what to look for in the input;
  - `literals_iff`: when every number of an accepted input is complete.
-/

namespace Forge

namespace Calculator

variable {α : Type} {A : Arithmetic α} {s text : List Char} {c : Char} {toks w : List Token}
  {t : Tree}

/-! ### Literals -/

/-- An exponent letter, and digits behind a sign. -/
def isExponent : List Char → Bool
  | e :: s => (e = 'e' || e = 'E') && (scanSign s).2 ≠ [] && (scanSign s).2.all Char.isDigit
  | [] => false

/-- A complete decimal literal: digits with one point at most and one digit
    at least, and an exponent with digits, if there is one. -/
def isLiteral (text : List Char) : Bool :=
  let s := (scanSign text).2
  let mantissa := s.takeWhile isMantissa
  let exponent := s.dropWhile isMantissa
  mantissa.any Char.isDigit && mantissa.count '.' ≤ 1 && (exponent = [] || isExponent exponent)

/-- The longest literal among the first `n` characters. -/
def literalUpTo (text : List Char) : ℕ → Option (List Char)
  | 0 => none
  | n + 1 => if isLiteral (text.take (n + 1)) then some (text.take (n + 1)) else literalUpTo text n

/-- What `std::stod` converts of a text. -/
def longestLiteral (text : List Char) : Option (List Char) := literalUpTo text text.length

/-- `std::stod`: the value of the longest literal in front, or an exception
    where there is none. -/
def literalStod (value : List Char → α) (text : List Char) : Except String α :=
  match longestLiteral text with
  | some literal => .ok (value literal)
  | none => .error "stod"

/-- The calculator with this conversion. -/
def Arithmetic.withStod (A : Arithmetic α) (value : List Char → α) : Arithmetic α :=
  { A with stod := literalStod value }

/-- The calculator over values that remember the texts converted. -/
def Arithmetic.logged (A : Arithmetic α) : Arithmetic (α × List (List Char)) where
  stod text := (A.stod text).map fun v => (v, [text])
  add x y := (A.add x.1 y.1, x.2 ++ y.2)
  sub x y := (A.sub x.1 y.1, x.2 ++ y.2)
  mul x y := (A.mul x.1 y.1, x.2 ++ y.2)
  div x y := (A.div x.1 y.1, x.2 ++ y.2)
  pow x y := (A.pow x.1 y.1, x.2 ++ y.2)
  neg x := (A.neg x.1, x.2)
  isZero x := A.isZero x.1

/-- The numbers of a tree, from left to right. -/
def Tree.texts : Tree → List (List Char)
  | .number text => [text]
  | .neg t => t.texts
  | .binary _ l r => l.texts ++ r.texts

theorem apply_logged (o : Op) (x y : α × List (List Char)) :
    A.logged.apply o x y = (A.apply o x.1 y.1).map fun v => (v, x.2 ++ y.2) := by
  cases o with
  | div =>
    unfold Arithmetic.apply Arithmetic.logged
    simp only
    split <;> rfl
  | _ => rfl

theorem eval_logged (A : Arithmetic α) (t : Tree) :
    eval A.logged t = (eval A t).map fun v => (v, t.texts) := by
  induction t with
  | number text => rfl
  | neg t ih =>
    rw [eval, eval, ih]
    cases eval A t <;> rfl
  | binary o l r ihl ihr =>
    rw [eval, eval, ihl, ihr]
    cases eval A l with
    | error e => rfl
    | ok x =>
      cases eval A r with
      | error e => rfl
      | ok y => exact apply_logged o _ _

/-- The numbers of a derivation are the number tokens of the input. -/
theorem Derives.texts_eq {c : Category} (h : Derives c t w) (text : List Char) :
    text ∈ t.texts ↔ .number text ∈ w := by
  induction h with
  | term _ ih | power _ ih | unary _ ih | atom _ ih => exact ih
  | exprOp _ _ _ ihl ihr | termOp _ _ _ ihl ihr | powerOp _ _ ihl ihr =>
    simp [Tree.texts, ihl, ihr]
  | neg _ ih | parens _ ih => simpa [Tree.texts] using ih
  | number text => simp [Tree.texts]

/-- The texts do not change what is accepted. -/
theorem parse_logged {input : List Char} {v : α} :
    parse A input = some (.ok v) ↔ ∃ texts, parse A.logged input = some (.ok (v, texts)) := by
  constructor
  · intro h
    obtain ⟨toks, t, hs, hd, heval⟩ := parse_sound h
    refine ⟨t.texts, ?_⟩
    rw [parse_complete hs hd, eval_logged, heval]
    rfl
  · rintro ⟨texts, h⟩
    obtain ⟨toks, t, hs, hd, heval⟩ := parse_sound h
    rw [eval_logged] at heval
    rw [parse_complete hs hd]
    cases hv : eval A t with
    | error e => simp [hv, Except.map] at heval
    | ok x =>
      simp only [hv, Except.map, Except.ok.injEq, Prod.mk.injEq] at heval
      rw [heval.1]

/-! ### What to Look For -/

/-- Two points with nothing but digits between them; `seen` says that the
    first of them is in front. -/
def twoPoints (seen : Bool) : List Char → Bool
  | [] => false
  | c :: s => if c = '.' then seen || twoPoints true s else twoPoints (seen && c.isDigit) s

/-- An `e` or `E` that is not followed by a digit, or by a sign and a digit. -/
def bareExponent : List Char → Bool
  | [] => false
  | c :: s =>
      ((c = 'e' || c = 'E') && !(scanSign s).2.head?.any Char.isDigit) || bareExponent s

/-- A point behind digits. -/
def PointAhead (s : List Char) : Prop := ∃ ds b, s = ds ++ '.' :: b ∧ ∀ c ∈ ds, c.isDigit

def TwoPoints (s : List Char) : Prop :=
  ∃ a ds b, s = a ++ '.' :: (ds ++ '.' :: b) ∧ ∀ c ∈ ds, c.isDigit

def BareExponent (s : List Char) : Prop :=
  ∃ a e b, s = a ++ e :: b ∧ (e = 'e' ∨ e = 'E') ∧ ∀ d ∈ (scanSign b).2.head?, ¬d.isDigit

theorem pointAhead_cons : PointAhead (c :: s) ↔ c = '.' ∨ c.isDigit ∧ PointAhead s := by
  constructor
  · rintro ⟨ds, b, heq, hds⟩
    cases ds with
    | nil => exact .inl (List.cons.inj heq).1
    | cons d ds =>
      obtain ⟨rfl, rfl⟩ := List.cons.inj heq
      obtain ⟨hd, hds⟩ := List.forall_mem_cons.mp hds
      exact .inr ⟨hd, ds, b, rfl, hds⟩
  · rintro (rfl | ⟨hc, ds, b, rfl, hds⟩)
    · exact ⟨[], s, rfl, by simp⟩
    · exact ⟨c :: ds, b, rfl, List.forall_mem_cons.mpr ⟨hc, hds⟩⟩

theorem twoPoints_cons : TwoPoints (c :: s) ↔ c = '.' ∧ PointAhead s ∨ TwoPoints s := by
  constructor
  · rintro ⟨a, ds, b, heq, hds⟩
    cases a with
    | nil => exact .inl ⟨(List.cons.inj heq).1, ds, b, (List.cons.inj heq).2, hds⟩
    | cons d a => exact .inr ⟨a, ds, b, (List.cons.inj heq).2, hds⟩
  · rintro (⟨rfl, ds, b, rfl, hds⟩ | ⟨a, ds, b, rfl, hds⟩)
    · exact ⟨[], ds, b, rfl, hds⟩
    · exact ⟨c :: a, ds, b, rfl, hds⟩

theorem bareExponent_cons : BareExponent (c :: s) ↔
    ((c = 'e' ∨ c = 'E') ∧ ∀ d ∈ (scanSign s).2.head?, ¬d.isDigit) ∨ BareExponent s := by
  constructor
  · rintro ⟨a, e, b, heq, he, hb⟩
    cases a with
    | nil =>
      obtain ⟨rfl, rfl⟩ := List.cons.inj heq
      exact .inl ⟨he, hb⟩
    | cons d a => exact .inr ⟨a, e, b, (List.cons.inj heq).2, he, hb⟩
  · rintro (⟨he, hb⟩ | ⟨a, e, b, rfl, he, hb⟩)
    · exact ⟨[], c, s, rfl, he, hb⟩
    · exact ⟨c :: a, e, b, rfl, he, hb⟩

theorem twoPoints_iff (seen : Bool) (s : List Char) :
    twoPoints seen s ↔ (seen = true ∧ PointAhead s) ∨ TwoPoints s := by
  induction s generalizing seen with
  | nil => simp [twoPoints, PointAhead, TwoPoints]
  | cons c s ih =>
    rw [twoPoints, pointAhead_cons, twoPoints_cons]
    by_cases hc : c = '.'
    · rw [if_pos hc, Bool.or_eq_true, ih]
      have hdigit : c.isDigit = false := by rw [hc]; decide
      simp [hc]
    · rw [if_neg hc, ih]
      simp [hc, and_assoc]

theorem bareExponent_iff (s : List Char) : bareExponent s ↔ BareExponent s := by
  induction s with
  | nil => simp [bareExponent, BareExponent]
  | cons c s ih =>
    rw [bareExponent, bareExponent_cons, Bool.or_eq_true, ih]
    cases (scanSign s).2.head? <;> simp

/-! ### Token by Token -/

/-- Digits and points, with the first of two points in front or not. -/
theorem twoPoints_mantissa {m : List Char} (hm : ∀ c ∈ m, isMantissa c) (seen : Bool)
    (s : List Char) : twoPoints seen (m ++ s) =
      (decide (2 ≤ m.count '.' + seen.toNat) || twoPoints (seen || m.contains '.') s) := by
  induction m generalizing seen with
  | nil => cases seen <;> simp
  | cons c m ih =>
    obtain ⟨hc, hm⟩ := List.forall_mem_cons.mp hm
    rw [List.cons_append, twoPoints]
    by_cases hpoint : c = '.'
    · rw [if_pos hpoint, ih hm, hpoint]
      cases seen <;> simp [Nat.add_assoc]
    · have hdigit : c.isDigit = true := by simpa [isMantissa, hpoint] using hc
      rw [if_neg hpoint, hdigit, Bool.and_true, ih hm]
      have hne : '.' ≠ c := fun h => hpoint h.symm
      simp [hpoint, hne]

/-- What is no digit and no point separates points. -/
theorem twoPoints_reset (hs : ∀ c ∈ s.head?, ¬isMantissa c) (seen : Bool) :
    twoPoints seen s = twoPoints false s := by
  cases s with
  | nil => rfl
  | cons c s =>
    have hc := hs c rfl
    have hpoint : c ≠ '.' := by rintro rfl; exact hc (by decide)
    have hdigit : c.isDigit = false := by simpa [isMantissa, hpoint] using hc
    rw [twoPoints, twoPoints, if_neg hpoint, if_neg hpoint, hdigit, Bool.and_false, Bool.and_false]

theorem twoPoints_append {l : List Char} (hl : '.' ∉ l) (s : List Char) :
    twoPoints false (l ++ s) = twoPoints false s := by
  induction l with
  | nil => rfl
  | cons c l ih =>
    rw [List.mem_cons, not_or] at hl
    obtain ⟨hc, hl⟩ := hl
    rw [List.cons_append, twoPoints, if_neg (Ne.symm hc), Bool.false_and, ih hl]

theorem bareExponent_append {l : List Char} (hl : ∀ c ∈ l, ¬(c = 'e' ∨ c = 'E')) (s : List Char) :
    bareExponent (l ++ s) = bareExponent s := by
  induction l with
  | nil => rfl
  | cons c l ih =>
    obtain ⟨hc, hl⟩ := List.forall_mem_cons.mp hl
    rw [not_or] at hc
    rw [List.cons_append, bareExponent, ih hl]
    simp [hc.1, hc.2]

/-- The parts of a number text. -/
structure Parts (text sign mantissa exponent : List Char) : Prop where
  text : text = sign ++ (mantissa ++ exponent)
  sign : sign = [] ∨ sign = ['+']
  mantissa : ∀ c ∈ mantissa, isMantissa c
  exponent : exponent = [] ∨ ExponentText exponent

theorem NumberText.parts (h : NumberText text) : ∃ sign mantissa exponent,
    Parts text sign mantissa exponent := by
  obtain ⟨-, sign, mantissa, exponent, htext, hsign, hmantissa, hexponent⟩ := h
  exact ⟨sign, mantissa, exponent, htext, hsign, hmantissa, hexponent⟩

variable {sign mantissa exponent : List Char}

theorem Parts.numberText (h : Parts text sign mantissa exponent) (hne : text ≠ []) :
    NumberText text := ⟨hne, sign, mantissa, exponent, h.text, h.sign, h.mantissa, h.exponent⟩

/-- A number without exponent ends where no digit and no point follows. -/
theorem Parts.stop_mantissa (h : Parts text sign mantissa [])
    (hstop : ∀ c ∈ s.head?, ¬NumberText (text ++ [c])) : ∀ c ∈ s.head?, ¬isMantissa c := by
  intro c hc hmantissa
  have hlonger : Parts (text ++ [c]) sign (mantissa ++ [c]) [] := by
    refine ⟨by rw [h.text]; simp, h.sign, ?_, .inl rfl⟩
    intro d hd
    obtain hd | hd := List.mem_append.mp hd
    · exact h.mantissa d hd
    · rwa [List.mem_singleton.mp hd]
  exact hstop c hc (hlonger.numberText (by simp))

/-- One with an exponent ends where no digit follows, and no sign behind
    the letter. -/
theorem Parts.stop_exponent {e : Char} {esign digits : List Char}
    (h : Parts text sign mantissa (e :: (esign ++ digits))) (he : e = 'e' ∨ e = 'E')
    (hesign : esign = [] ∨ esign = ['+'] ∨ esign = ['-']) (hdigits : ∀ c ∈ digits, c.isDigit)
    (hstop : ∀ c ∈ s.head?, ¬NumberText (text ++ [c])) : ∀ c ∈ s.head?,
      ¬c.isDigit ∧ (esign = [] → digits = [] → ¬(c = '-' ∨ c = '+')) := by
  intro c hc
  constructor
  · intro hdigit
    have hlonger : Parts (text ++ [c]) sign mantissa (e :: (esign ++ (digits ++ [c]))) := by
      refine ⟨by rw [h.text]; simp, h.sign, h.mantissa, .inr ⟨e, esign, _, rfl, he, hesign, ?_⟩⟩
      intro d hd
      obtain hd | hd := List.mem_append.mp hd
      · exact hdigits d hd
      · rwa [List.mem_singleton.mp hd]
    exact hstop c hc (hlonger.numberText (by simp))
  · rintro rfl rfl hsign
    have hlonger : Parts (text ++ [c]) sign mantissa (e :: ([c] ++ [])) := by
      refine ⟨by rw [h.text]; simp, h.sign, h.mantissa, .inr ⟨e, [c], [], rfl, he, ?_, by simp⟩⟩
      rcases hsign with rfl | rfl <;> simp
    exact hstop c hc (hlonger.numberText (by simp))

theorem exponent_not_mantissa (h : ExponentText exponent) :
    ∀ c ∈ exponent.head?, ¬isMantissa c := by
  obtain ⟨e, esign, digits, rfl, he, -⟩ := h
  intro c hc hmantissa
  obtain rfl : e = c := Option.some.inj hc
  exact mantissa_not_exponent hmantissa he

theorem exponent_no_point (h : ExponentText exponent) : '.' ∉ exponent := by
  obtain ⟨e, esign, digits, rfl, he, hesign, hdigits⟩ := h
  simp only [List.mem_cons, List.mem_append, not_or]
  refine ⟨?_, ?_, ?_⟩
  · rintro rfl
    exact absurd he (by decide)
  · rcases hesign with rfl | rfl | rfl <;> decide
  · intro hpoint
    exact absurd (hdigits _ hpoint) (by decide)

/-- Two points in a number: in its mantissa. -/
theorem Parts.twoPoints (h : Parts text sign mantissa exponent)
    (hstop : ∀ c ∈ s.head?, ¬NumberText (text ++ [c])) : twoPoints false (text ++ s) =
      (decide (2 ≤ mantissa.count '.') || Calculator.twoPoints false s) := by
  have hsign : '.' ∉ sign := by rcases h.sign with rfl | rfl <;> decide
  have hrest : ∀ seen,
      Calculator.twoPoints seen (exponent ++ s) = Calculator.twoPoints false s := by
    intro seen
    obtain rfl | hexponent := h.exponent
    · exact twoPoints_reset (h.stop_mantissa hstop) seen
    · rw [twoPoints_reset, twoPoints_append (exponent_no_point hexponent)]
      obtain ⟨e, tail, rfl⟩ : ∃ e tail, exponent = e :: tail := by
        obtain ⟨e, esign, digits, rfl, -⟩ := hexponent
        exact ⟨e, _, rfl⟩
      intro c hc
      exact exponent_not_mantissa hexponent c hc
  rw [h.text, List.append_assoc, twoPoints_append hsign, List.append_assoc,
    twoPoints_mantissa h.mantissa, hrest]
  simp

/-- Behind an exponent letter and its sign. -/
theorem scanSign_exponent {esign digits : List Char}
    (hesign : esign = [] ∨ esign = ['+'] ∨ esign = ['-']) (hdigits : ∀ c ∈ digits, c.isDigit)
    (hs : ∀ c ∈ s.head?, ¬c.isDigit ∧ (esign = [] → digits = [] → ¬(c = '-' ∨ c = '+'))) :
    scanSign (esign ++ (digits ++ s)) = (esign, digits ++ s) := by
  rcases hesign with rfl | rfl | rfl
  · rw [List.nil_append]
    cases digits with
    | cons d ds => rw [List.cons_append, scanSign, if_neg (digit_not_sign (hdigits d (by simp)))]
    | nil =>
      rw [List.nil_append]
      cases s with
      | nil => rfl
      | cons c s => rw [scanSign, if_neg ((hs c rfl).2 rfl rfl)]
  · rfl
  · rfl

/-- An exponent without digits in a number. -/
theorem Parts.bareExponent {e : Char} {esign digits : List Char}
    (h : Parts text sign mantissa (e :: (esign ++ digits))) (he : e = 'e' ∨ e = 'E')
    (hesign : esign = [] ∨ esign = ['+'] ∨ esign = ['-']) (hdigits : ∀ c ∈ digits, c.isDigit)
    (hstop : ∀ c ∈ s.head?, ¬NumberText (text ++ [c])) : bareExponent (text ++ s) =
      (decide (digits = []) || Calculator.bareExponent s) := by
  have hstop' := h.stop_exponent he hesign hdigits hstop
  have hsign : ∀ c ∈ sign, ¬(c = 'e' ∨ c = 'E') := by
    rcases h.sign with rfl | rfl <;> simp
  have hmantissa : ∀ c ∈ mantissa, ¬(c = 'e' ∨ c = 'E') :=
    fun c hc => mantissa_not_exponent (h.mantissa c hc)
  have hesign' : ∀ c ∈ esign, ¬(c = 'e' ∨ c = 'E') := by
    rcases hesign with rfl | rfl | rfl <;> simp
  have hdigits' : ∀ c ∈ digits, ¬(c = 'e' ∨ c = 'E') := by
    intro c hc hletter
    have hdigit := hdigits c hc
    rcases hletter with rfl | rfl <;> exact absurd hdigit (by decide)
  rw [h.text, List.append_assoc, bareExponent_append hsign, List.append_assoc,
    bareExponent_append hmantissa, List.cons_append, Calculator.bareExponent, List.append_assoc,
    scanSign_exponent hesign hdigits hstop', bareExponent_append hesign',
    bareExponent_append hdigits']
  congr 1
  have hletter : (decide (e = 'e') || decide (e = 'E')) = true := by simpa using he
  rw [hletter, Bool.true_and]
  cases digits with
  | cons d ds =>
    have hd := hdigits d (by simp)
    simp [hd]
  | nil =>
    cases hhead : s.head? with
    | none => simp [hhead]
    | some c =>
      have hc := (hstop' c hhead).1
      simp [hhead, hc]

theorem Parts.bareExponent_nil (h : Parts text sign mantissa []) (s : List Char) :
    Calculator.bareExponent (text ++ s) = Calculator.bareExponent s := by
  have hsign : ∀ c ∈ sign, ¬(c = 'e' ∨ c = 'E') := by
    rcases h.sign with rfl | rfl <;> simp
  have hmantissa : ∀ c ∈ mantissa, ¬(c = 'e' ∨ c = 'E') :=
    fun c hc => mantissa_not_exponent (h.mantissa c hc)
  rw [h.text, List.append_nil, List.append_assoc, bareExponent_append hsign,
    bareExponent_append hmantissa]

/-- A number that ends its text. -/
theorem stop_nil : ∀ c ∈ ([] : List Char).head?, ¬NumberText (text ++ [c]) := by simp

/-- What is looked for is in a number or behind it. -/
theorem NumberText.twoPoints_append (h : NumberText text)
    (hstop : ∀ c ∈ s.head?, ¬NumberText (text ++ [c])) : twoPoints false (text ++ s) =
      (twoPoints false text || twoPoints false s) := by
  obtain ⟨sign, mantissa, exponent, hparts⟩ := h.parts
  have halone := hparts.twoPoints (@stop_nil text)
  rw [List.append_nil] at halone
  rw [hparts.twoPoints hstop, halone, twoPoints, Bool.or_false]

theorem NumberText.bareExponent_append (h : NumberText text)
    (hstop : ∀ c ∈ s.head?, ¬NumberText (text ++ [c])) : bareExponent (text ++ s) =
      (bareExponent text || bareExponent s) := by
  obtain ⟨sign, mantissa, exponent, hparts⟩ := h.parts
  obtain rfl | ⟨e, esign, digits, rfl, he, hesign, hdigits⟩ := hparts.exponent
  · have halone := hparts.bareExponent_nil []
    rw [List.append_nil] at halone
    rw [hparts.bareExponent_nil, halone, bareExponent, Bool.false_or]
  · have halone := hparts.bareExponent he hesign hdigits (@stop_nil text)
    rw [List.append_nil] at halone
    rw [hparts.bareExponent he hesign hdigits hstop, halone, bareExponent, Bool.or_false]

/-- **What is looked for is in one of the numbers.** -/
theorem spells_defects (h : Spells toks s) :
    (twoPoints false s ↔ ∃ text, .number text ∈ toks ∧ twoPoints false text) ∧
    (bareExponent s ↔ ∃ text, .number text ∈ toks ∧ bareExponent text) := by
  induction h with
  | nil => simp [twoPoints, bareExponent]
  | space _ ih => simpa [twoPoints, bareExponent] using ih
  | op o _ ih => cases o <;> simpa [twoPoints, bareExponent, Op.char] using ih
  | lparen _ ih => simpa [twoPoints, bareExponent] using ih
  | rparen _ ih => simpa [twoPoints, bareExponent] using ih
  | number htext hstop _ ih =>
    rw [htext.twoPoints_append hstop, htext.bareExponent_append hstop, Bool.or_eq_true,
      Bool.or_eq_true, ih.1, ih.2]
    simp [or_and_right, exists_or]

/-! ### Complete Literals -/

theorem takeWhile_stop {p : Char → Bool} {l : List Char} (hl : ∀ c ∈ l, p c)
    (hs : ∀ c ∈ s.head?, ¬p c) : (l ++ s).takeWhile p = l ∧ (l ++ s).dropWhile p = s := by
  rw [List.takeWhile_append_of_pos hl, List.dropWhile_append_of_pos hl]
  cases s with
  | nil => simp
  | cons c s =>
    have hc := hs c rfl
    rw [List.takeWhile_cons_of_neg hc, List.dropWhile_cons_of_neg hc, List.append_nil]
    exact ⟨rfl, rfl⟩

/-- The sign of a number text. -/
theorem Parts.scanSign (h : Parts text sign mantissa exponent) :
    (scanSign text).2 = mantissa ++ exponent := by
  rw [h.text]
  rcases h.sign with rfl | rfl
  · rw [List.nil_append]
    cases hfirst : mantissa ++ exponent with
    | nil => rfl
    | cons c w =>
      have hc : ¬(c = '-' ∨ c = '+') := by
        cases mantissa with
        | cons d m =>
          obtain ⟨rfl, -⟩ := List.cons.inj hfirst
          have hd := h.mantissa d (by simp)
          rintro (rfl | rfl) <;> exact absurd hd (by decide)
        | nil =>
          obtain rfl | ⟨e, esign, digits, rfl, he, -⟩ := h.exponent
          · exact absurd hfirst (by simp)
          · obtain ⟨rfl, -⟩ := List.cons.inj hfirst
            rcases he with rfl | rfl <;> decide
      rw [Calculator.scanSign, if_neg hc]
  · rfl

theorem Parts.spans (h : Parts text sign mantissa exponent) :
    (Calculator.scanSign text).2.takeWhile isMantissa = mantissa ∧
    (Calculator.scanSign text).2.dropWhile isMantissa = exponent := by
  rw [h.scanSign]
  refine takeWhile_stop h.mantissa ?_
  obtain rfl | hexponent := h.exponent
  · simp
  · exact exponent_not_mantissa hexponent

/-- The mantissa has a digit. -/
def HasDigit (text : List Char) : Prop :=
  ∃ c ∈ (scanSign text).2.takeWhile isMantissa, c.isDigit

/-- More text behind it does not take the digit away. -/
theorem HasDigit.append {p : List Char} (h : HasDigit p) (q : List Char) : HasDigit (p ++ q) := by
  obtain ⟨d, hd, hdigit⟩ := h
  have hmem : ∀ l : List Char, d ∈ l.takeWhile isMantissa →
      d ∈ (l ++ q).takeWhile isMantissa := by
    intro l hl
    induction l with
    | nil => simp at hl
    | cons c l ih =>
      by_cases hc : isMantissa c
      · rw [List.takeWhile_cons_of_pos hc] at hl
        rw [List.cons_append, List.takeWhile_cons_of_pos hc]
        obtain rfl | hl := List.mem_cons.mp hl
        · simp
        · exact List.mem_cons_of_mem _ (ih hl)
      · simp [List.takeWhile_cons_of_neg hc] at hl
  cases p with
  | nil => simp [scanSign] at hd
  | cons c p =>
    refine ⟨d, ?_, hdigit⟩
    rw [List.cons_append, scanSign]
    rw [scanSign] at hd
    split
    · next hsign =>
      rw [if_pos hsign] at hd
      exact hmem p hd
    · next hsign =>
      rw [if_neg hsign] at hd
      exact hmem (c :: p) hd

theorem hasDigit_of_isLiteral (h : isLiteral text) : HasDigit text := by
  simp only [isLiteral, Bool.and_eq_true, List.any_eq_true] at h
  exact h.1.1

/-- Where `std::stod` converts something there is a digit. -/
theorem hasDigit_of_literalUpTo {n : ℕ} {p : List Char} (h : literalUpTo text n = some p) :
    HasDigit text := by
  induction n with
  | zero => exact absurd h (by simp [literalUpTo])
  | succ n ih =>
    unfold literalUpTo at h
    split at h
    · next hlit =>
      have hdigit := (hasDigit_of_isLiteral hlit).append (text.drop (n + 1))
      rwa [List.take_append_drop] at hdigit
    · exact ih h

/-- A complete literal is converted as a whole. -/
theorem longestLiteral_self (h : isLiteral text) : longestLiteral text = some text := by
  unfold longestLiteral
  cases hlen : text.length with
  | zero =>
    obtain rfl := List.eq_nil_of_length_eq_zero hlen
    exact absurd h (by decide)
  | succ n =>
    have hall : text.take (n + 1) = text := List.take_of_length_le (by omega)
    rw [literalUpTo, hall, if_pos h]

theorem isExponent_iff {e : Char} {esign digits : List Char} (he : e = 'e' ∨ e = 'E')
    (hesign : esign = [] ∨ esign = ['+'] ∨ esign = ['-']) (hdigits : ∀ c ∈ digits, c.isDigit) :
    isExponent (e :: (esign ++ digits)) ↔ digits ≠ [] := by
  have hscan := @scanSign_exponent [] esign digits hesign hdigits (by simp)
  rw [List.append_nil] at hscan
  have hall : digits.all Char.isDigit = true := List.all_eq_true.mpr hdigits
  have hletter : (decide (e = 'e') || decide (e = 'E')) = true := by simpa using he
  rw [isExponent, hscan, hall, hletter]
  simp

/-- **A number that is converted is complete** if it has no two points and
    its exponent has digits. -/
theorem isLiteral_iff (h : NumberText text) (hdigit : HasDigit text) :
    isLiteral text ↔ ¬twoPoints false text ∧ ¬bareExponent text := by
  obtain ⟨sign, mantissa, exponent, hparts⟩ := h.parts
  obtain ⟨hmantissa, hexponent⟩ := hparts.spans
  unfold HasDigit at hdigit
  rw [hmantissa] at hdigit
  have hany : mantissa.any Char.isDigit = true := by simpa [List.any_eq_true] using hdigit
  have hpoints := hparts.twoPoints (@stop_nil text)
  rw [List.append_nil, twoPoints, Bool.or_false] at hpoints
  unfold isLiteral
  simp only [hmantissa, hexponent, hany, hpoints]
  have hcount : ¬2 ≤ mantissa.count '.' ↔ mantissa.count '.' ≤ 1 := by omega
  obtain rfl | ⟨e, esign, digits, rfl, he, hesign, hdigits⟩ := hparts.exponent
  · have hbare := hparts.bareExponent_nil []
    rw [List.append_nil] at hbare
    rw [hbare]
    simp only [bareExponent, Bool.true_and, decide_true, Bool.true_or, Bool.and_true,
      decide_eq_true_eq, hcount, Bool.false_eq_true, not_false_eq_true, and_true]
  · have hbare := hparts.bareExponent he hesign hdigits (@stop_nil text)
    rw [List.append_nil, bareExponent, Bool.or_false] at hbare
    have hexp := isExponent_iff he hesign hdigits
    rw [hbare]
    simp only [hexp, Bool.true_and, reduceCtorEq, decide_false, Bool.false_or, Bool.and_eq_true,
      decide_eq_true_eq, ne_eq, hcount]

/-! ### Accepted Inputs -/

theorem numbers_converted {v : α} (h : eval A t = .ok v) :
    ∀ text ∈ t.texts, ∃ x, A.stod text = .ok x := by
  induction t generalizing v with
  | number text =>
    intro text' hmem
    obtain rfl := List.mem_singleton.mp hmem
    exact ⟨v, h⟩
  | neg t ih =>
    rw [eval] at h
    cases ht : eval A t with
    | error e => rw [ht] at h; exact absurd h (by simp [Except.map])
    | ok x => exact ih ht
  | binary o l r ihl ihr =>
    rw [eval] at h
    cases hl : eval A l with
    | error e => rw [hl] at h; cases h
    | ok x =>
      cases hr : eval A r with
      | error e => rw [hl, hr] at h; cases h
      | ok y =>
        intro text hmem
        obtain hmem | hmem := List.mem_append.mp hmem
        · exact ihl hl text hmem
        · exact ihr hr text hmem

theorem Spells.numberText (h : Spells toks s) : ∀ text, .number text ∈ toks → NumberText text := by
  induction h with
  | nil => simp
  | space _ ih => exact ih
  | op _ _ ih | lparen _ ih | rparen _ ih => simpa using ih
  | number htext _ _ ih =>
    intro text hmem
    obtain heq | hmem := List.mem_cons.mp hmem
    · exact Token.number.inj heq ▸ htext
    · exact ih text hmem

/-- **The numbers of an accepted input.** Every text that `parse_number`
    converted is a complete literal, nothing of it is left out and its
    value is that of the whole, if and only if the input has no two points
    with only digits between them and no exponent letter without digits. -/
theorem literals_iff (A : Arithmetic α) (value : List Char → α) {input : List Char} {v : α}
    {texts : List (List Char)}
    (h : parse (A.withStod value).logged input = some (.ok (v, texts))) :
    (∀ text ∈ texts, isLiteral text ∧ longestLiteral text = some text ∧
      (A.withStod value).stod text = .ok (value text)) ↔
    ¬TwoPoints input ∧ ¬BareExponent input := by
  obtain ⟨toks, t, hs, hd, heval⟩ := parse_sound h
  rw [eval_logged] at heval
  cases hv : eval (A.withStod value) t with
  | error e => rw [hv] at heval; exact absurd heval (by simp [Except.map])
  | ok x =>
    rw [hv] at heval
    simp only [Except.map, Except.ok.injEq, Prod.mk.injEq] at heval
    obtain ⟨-, rfl⟩ := heval
    obtain ⟨htwo, hbare⟩ := spells_defects hs
    have hcomplete : ∀ text ∈ t.texts,
        (isLiteral text ↔ ¬twoPoints false text ∧ ¬bareExponent text) := by
      intro text hmem
      obtain ⟨y, hy⟩ := numbers_converted hv text hmem
      refine isLiteral_iff (hs.numberText text ((hd.texts_eq text).mp hmem)) ?_
      cases hlit : longestLiteral text with
      | none => simp [Arithmetic.withStod, literalStod, hlit] at hy
      | some p => exact hasDigit_of_literalUpTo hlit
    have hinput : (¬TwoPoints input ∧ ¬BareExponent input) ↔
        ∀ text ∈ t.texts, ¬twoPoints false text ∧ ¬bareExponent text := by
      have hdeclared := twoPoints_iff false input
      rw [htwo] at hdeclared
      rw [← bareExponent_iff, hbare]
      simp only [Bool.false_eq_true, false_and, false_or] at hdeclared
      rw [← hdeclared]
      simp only [← hd.texts_eq, not_exists, not_and]
      constructor
      · rintro ⟨hno, hno'⟩ text hmem
        exact ⟨hno text hmem, hno' text hmem⟩
      · intro hall
        exact ⟨fun text hmem => (hall text hmem).1, fun text hmem => (hall text hmem).2⟩
    rw [hinput]
    constructor
    · intro hall text hmem
      exact (hcomplete text hmem).mp (hall text hmem).1
    · intro hall text hmem
      have hlit := (hcomplete text hmem).mpr (hall text hmem)
      have hself := longestLiteral_self hlit
      exact ⟨hlit, hself, by simp [Arithmetic.withStod, literalStod, hself]⟩

/-! ### In Rational Numbers -/

def digitsValue (ds : List Char) : ℕ := ds.foldl (fun n c => 10 * n + (c.toNat - '0'.toNat)) 0

/-- The value of a complete literal. -/
def literalValue (text : List Char) : ℚ :=
  let s := (scanSign text).2
  let mantissa := s.takeWhile isMantissa
  let whole := mantissa.takeWhile Char.isDigit
  let fraction := (mantissa.dropWhile Char.isDigit).drop 1
  let exponent := scanSign ((s.dropWhile isMantissa).drop 1)
  let significand : ℚ := (digitsValue (whole ++ fraction) : ℚ) / 10 ^ fraction.length
  if exponent.1 = ['-'] then significand / 10 ^ digitsValue exponent.2
  else significand * 10 ^ digitsValue exponent.2

/-- Exact arithmetic, with natural numbers as exponents. -/
def rationals : Arithmetic ℚ where
  stod := literalStod literalValue
  add x y := x + y
  sub x y := x - y
  mul x y := x * y
  div x y := x / y
  pow x y := x ^ y.num.toNat
  neg x := -x
  isZero x := x = 0

example : parse rationals "2^10 + 3*17".toList = some (.ok 1075) ∧
    parse rationals "-(2 + 3) / 0".toList = some (.error "Division by zero") := by
  decide +kernel

/-- `1.5e1 + 2`. -/
theorem fifteenPlusTwo_complete :
    parse (rationals.withStod literalValue).logged "1.5e1 + 2".toList =
        some (.ok (17, ["1.5e1".toList, "2".toList])) ∧
      ∀ text ∈ ["1.5e1".toList, "2".toList], isLiteral text ∧ longestLiteral text = some text ∧
        (rationals.withStod literalValue).stod text = .ok (literalValue text) := by
  have hparse : parse (rationals.withStod literalValue).logged "1.5e1 + 2".toList =
      some (.ok (17, ["1.5e1".toList, "2".toList])) := by decide +kernel
  refine ⟨hparse, (literals_iff rationals literalValue hparse).mpr ?_⟩
  rw [← bareExponent_iff]
  have htwo := twoPoints_iff false "1.5e1 + 2".toList
  simp only [Bool.false_eq_true, false_and, false_or] at htwo
  rw [← htwo]
  decide

/-- `1.2.3` is accepted, and its value is that of `1.2`. -/
theorem secondPoint_ignored :
    ¬ ∀ (A : Arithmetic ℚ) (value : List Char → ℚ) (input : List Char) (v : ℚ)
      (texts : List (List Char)),
      parse (A.withStod value).logged input = some (.ok (v, texts)) →
      ∀ text ∈ texts, isLiteral text ∧ longestLiteral text = some text ∧
        (A.withStod value).stod text = .ok (value text) := by
  intro hall
  have hcomplete := hall rationals literalValue "1.2.3".toList (6 / 5) ["1.2.3".toList]
    (by decide +kernel)
    "1.2.3".toList (by simp)
  exact absurd hcomplete.1 (by decide)

end Calculator

end Forge
