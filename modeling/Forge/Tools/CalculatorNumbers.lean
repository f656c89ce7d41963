import Forge.Tools.CalculatorGrammar

/-! # Calculator — Numbers and Tokens

  `parse_number` (`tools/builtin/calculator.h`) scans the longest number
  text, and the procedures above it see the first token of what is left:

  - `numberStep`: number texts as an automaton (`numberText_iff_run`);
  - `scanNumber_eq_iff`: what the scan takes;
  - `Spells.cons_inv`, `Spells.nil_inv`: the first token of a string;
  - `spells_spaced`: tokens written with spaces between them.
-/

namespace Forge

namespace Calculator

open Munch

variable {s text rest w : List Char} {c : Char} {toks : List Token} {tok : Token}

/-! ### Number Texts as an Automaton -/

/-- How far a number text is. -/
inductive NumberState where
  | start | mantissa | exponent | digits
  deriving DecidableEq

def digitStep (c : Char) : Option NumberState := if c.isDigit then some .digits else none

def mantissaStep (c : Char) : Option NumberState :=
  if isMantissa c then some .mantissa
  else if c = 'e' ∨ c = 'E' then some .exponent
  else none

def numberStep : NumberState → Char → Option NumberState
  | .start, c => if c = '+' then some .mantissa else mantissaStep c
  | .mantissa, c => mantissaStep c
  | .exponent, c => if c = '-' ∨ c = '+' then some .digits else digitStep c
  | .digits, c => digitStep c

theorem mantissa_not_exponent (hc : isMantissa c) : ¬(c = 'e' ∨ c = 'E') := by
  rintro (rfl | rfl) <;> exact absurd hc (by decide)

theorem digit_not_sign (hc : c.isDigit) : ¬(c = '-' ∨ c = '+') := by
  rintro (rfl | rfl) <;> exact absurd hc (by decide)

theorem run_digits : (run numberStep .digits w).isSome ↔ ∀ c ∈ w, c.isDigit := by
  induction w with
  | nil => simp [run]
  | cons c w ih =>
    rw [run, List.forall_mem_cons, ← ih]
    by_cases hc : c.isDigit
    · simp [numberStep, digitStep, hc]
    · simp [numberStep, digitStep, hc]

theorem run_exponent : (run numberStep .exponent w).isSome ↔ ∃ sign digits, w = sign ++ digits ∧
    (sign = [] ∨ sign = ['+'] ∨ sign = ['-']) ∧ ∀ c ∈ digits, c.isDigit := by
  cases w with
  | nil => exact iff_of_true rfl ⟨[], [], rfl, .inl rfl, by simp⟩
  | cons c w =>
    rw [run, numberStep]
    by_cases hsign : c = '-' ∨ c = '+'
    · rw [if_pos hsign, Option.bind_some, run_digits]
      constructor
      · intro hw
        exact ⟨[c], w, rfl, by rcases hsign with rfl | rfl <;> simp, hw⟩
      · rintro ⟨sign, digits, heq, hsigns, hdigits⟩
        rcases hsigns with rfl | rfl | rfl
        · obtain rfl : c :: w = digits := heq
          exact absurd hsign (digit_not_sign (hdigits c (by simp)))
        · exact (List.cons.inj heq).2 ▸ hdigits
        · exact (List.cons.inj heq).2 ▸ hdigits
    · rw [if_neg hsign, show (digitStep c).bind (fun q' => run numberStep q' w) =
        run numberStep .digits (c :: w) from rfl, run_digits]
      constructor
      · intro hall
        exact ⟨[], c :: w, rfl, .inl rfl, hall⟩
      · rintro ⟨sign, digits, heq, hsigns, hdigits⟩
        rcases hsigns with rfl | rfl | rfl
        · exact heq ▸ hdigits
        · exact absurd (.inr (List.cons.inj heq).1) hsign
        · exact absurd (.inl (List.cons.inj heq).1) hsign

theorem run_mantissa : (run numberStep .mantissa w).isSome ↔ ∃ mantissa exponent,
    w = mantissa ++ exponent ∧ (∀ c ∈ mantissa, isMantissa c) ∧
      (exponent = [] ∨ ExponentText exponent) := by
  induction w with
  | nil => exact iff_of_true rfl ⟨[], [], rfl, by simp, .inl rfl⟩
  | cons c w ih =>
    rw [run, numberStep, mantissaStep]
    by_cases hc : isMantissa c
    · rw [if_pos hc, Option.bind_some, ih]
      constructor
      · rintro ⟨mantissa, exponent, rfl, hmantissa, hexponent⟩
        exact ⟨c :: mantissa, exponent, rfl, List.forall_mem_cons.mpr ⟨hc, hmantissa⟩, hexponent⟩
      · rintro ⟨mantissa, exponent, heq, hmantissa, hexponent⟩
        cases mantissa with
        | nil =>
          -- no exponent begins so
          obtain rfl : c :: w = exponent := heq
          obtain hnil | ⟨e, sign, digits, htext, he, -⟩ := hexponent
          · exact absurd hnil (by simp)
          · rw [(List.cons.inj htext).1] at hc
            exact absurd he (mantissa_not_exponent hc)
        | cons d mantissa =>
          obtain ⟨rfl, rfl⟩ := List.cons.inj heq
          exact ⟨mantissa, exponent, rfl, (List.forall_mem_cons.mp hmantissa).2, hexponent⟩
    · rw [if_neg hc]
      have hexp : (∃ mantissa exponent, c :: w = mantissa ++ exponent ∧
          (∀ c ∈ mantissa, isMantissa c) ∧ (exponent = [] ∨ ExponentText exponent)) ↔
          ExponentText (c :: w) := by
        constructor
        · rintro ⟨mantissa, exponent, heq, hmantissa, hexponent⟩
          cases mantissa with
          | nil =>
            obtain rfl : c :: w = exponent := heq
            exact hexponent.resolve_left (by simp)
          | cons d mantissa =>
            obtain ⟨rfl, -⟩ := List.cons.inj heq
            exact absurd (hmantissa c (by simp)) hc
        · intro htext
          exact ⟨[], c :: w, rfl, by simp, .inr htext⟩
      rw [hexp]
      by_cases he : c = 'e' ∨ c = 'E'
      · rw [if_pos he, Option.bind_some, run_exponent]
        constructor
        · rintro ⟨sign, digits, rfl, hsign, hdigits⟩
          exact ⟨c, sign, digits, rfl, he, hsign, hdigits⟩
        · rintro ⟨e, sign, digits, heq, -, hsign, hdigits⟩
          exact ⟨sign, digits, (List.cons.inj heq).2, hsign, hdigits⟩
      · rw [if_neg he, Option.bind_none]
        refine iff_of_false (by simp) ?_
        rintro ⟨e, sign, digits, heq, he', -⟩
        rw [← (List.cons.inj heq).1] at he'
        exact he he'

theorem run_start : (run numberStep .start w).isSome ↔ ∃ sign mantissa exponent,
    w = sign ++ (mantissa ++ exponent) ∧ (sign = [] ∨ sign = ['+']) ∧
      (∀ c ∈ mantissa, isMantissa c) ∧ (exponent = [] ∨ ExponentText exponent) := by
  have hmantissa := @run_mantissa w
  cases w with
  | nil => exact iff_of_true rfl ⟨[], [], [], rfl, .inl rfl, by simp, .inl rfl⟩
  | cons c w =>
    by_cases hplus : c = '+'
    · subst hplus
      rw [run, numberStep, if_pos rfl, Option.bind_some, run_mantissa]
      constructor
      · rintro ⟨mantissa, exponent, rfl, hm, he⟩
        exact ⟨['+'], mantissa, exponent, rfl, .inr rfl, hm, he⟩
      · rintro ⟨sign, mantissa, exponent, heq, rfl | rfl, hm, he⟩
        · -- the text does not begin with a plus sign
          have hrun := run_mantissa.mpr ⟨mantissa, exponent, rfl, hm, he⟩
          rw [← List.nil_append (mantissa ++ exponent), ← heq] at hrun
          exact absurd hrun (by simp [run, numberStep, mantissaStep, isMantissa])
        · exact ⟨mantissa, exponent, (List.cons.inj heq).2, hm, he⟩
    · have hstart : run numberStep .start (c :: w) = run numberStep .mantissa (c :: w) := by
        rw [run, run, numberStep, if_neg hplus]
        rfl
      rw [hstart, hmantissa]
      constructor
      · rintro ⟨mantissa, exponent, heq, hm, he⟩
        exact ⟨[], mantissa, exponent, heq, .inl rfl, hm, he⟩
      · rintro ⟨sign, mantissa, exponent, heq, rfl | rfl, hm, he⟩
        · exact ⟨mantissa, exponent, heq, hm, he⟩
        · exact absurd (List.cons.inj heq).1 hplus

/-- Number texts are what the automaton reads. -/
theorem numberText_iff_run : NumberText w ↔ w ≠ [] ∧ (run numberStep .start w).isSome := by
  rw [run_start]
  rfl

/-! ### The Scan -/

theorem munch_digits (s : List Char) :
    munch numberStep .digits s = (s.takeWhile Char.isDigit, s.dropWhile Char.isDigit) := by
  induction s with
  | nil => rfl
  | cons c s ih =>
    by_cases hc : c.isDigit
    · rw [@munch_cons_some _ _ numberStep .digits s c .digits (by simp [numberStep, digitStep, hc]),
        ih, List.takeWhile_cons_of_pos hc, List.dropWhile_cons_of_pos hc]
    · rw [munch_cons_none (by simp [numberStep, digitStep, hc]), List.takeWhile_cons_of_neg hc,
        List.dropWhile_cons_of_neg hc]

theorem munch_exponent (s : List Char) : munch numberStep .exponent s =
    ((scanSign s).1 ++ (scanSign s).2.takeWhile Char.isDigit,
      (scanSign s).2.dropWhile Char.isDigit) := by
  cases s with
  | nil => rfl
  | cons c s =>
    by_cases hsign : c = '-' ∨ c = '+'
    · rw [@munch_cons_some _ _ numberStep .exponent s c .digits (by simp [numberStep, hsign]),
        munch_digits, scanSign, if_pos hsign]
      rfl
    · have hsame : munch numberStep .exponent (c :: s) = munch numberStep .digits (c :: s) := by
        rw [munch, munch, numberStep, if_neg hsign]
        rfl
      rw [hsame, munch_digits, scanSign, if_neg hsign]
      rfl

theorem munch_mantissa (s : List Char) : munch numberStep .mantissa s =
    (s.takeWhile isMantissa ++ (scanExponent (s.dropWhile isMantissa)).1,
      (scanExponent (s.dropWhile isMantissa)).2) := by
  induction s with
  | nil => rfl
  | cons c s ih =>
    by_cases hc : isMantissa c
    · rw [@munch_cons_some _ _ numberStep .mantissa s c .mantissa
          (by simp [numberStep, mantissaStep, hc]),
        ih, List.takeWhile_cons_of_pos hc, List.dropWhile_cons_of_pos hc]
      rfl
    · rw [List.takeWhile_cons_of_neg hc, List.dropWhile_cons_of_neg hc, scanExponent]
      by_cases he : c = 'e' ∨ c = 'E'
      · rw [@munch_cons_some _ _ numberStep .mantissa s c .exponent
            (by simp [numberStep, mantissaStep, hc, he]), munch_exponent, if_pos he]
        rfl
      · rw [munch_cons_none (by simp [numberStep, mantissaStep, hc, he]), if_neg he]
        rfl

/-- Where no minus sign is in front, the scan reads as far as it can. -/
theorem scanNumber_eq_munch (hminus : s.head? ≠ some '-') :
    scanNumber s = munch numberStep .start s := by
  cases s with
  | nil => rfl
  | cons c s =>
    by_cases hplus : c = '+'
    · subst hplus
      rw [@munch_cons_some _ _ numberStep .start s '+' .mantissa rfl, munch_mantissa]
      rfl
    · have hstart : munch numberStep .start (c :: s) = munch numberStep .mantissa (c :: s) := by
        rw [munch, munch, numberStep, if_neg hplus]
        rfl
      have hsign : ¬(c = '-' ∨ c = '+') := by
        rintro (rfl | rfl)
        · exact hminus rfl
        · exact hplus rfl
      rw [hstart, munch_mantissa, scanNumber, scanSign, if_neg hsign]
      rfl

/-- **What `parse_number` takes**: the longest number text, or nothing. -/
theorem scanNumber_eq_iff (hminus : s.head? ≠ some '-') : scanNumber s = (text, rest) ↔
    s = text ++ rest ∧ (text = [] ∨ NumberText text) ∧
      ∀ c ∈ rest.head?, ¬NumberText (text ++ [c]) := by
  have hread : ∀ w : List Char,
      (run numberStep .start w).isSome ↔ w = [] ∨ NumberText w := by
    intro w
    rw [numberText_iff_run]
    by_cases hw : w = []
    · subst hw
      exact iff_of_true rfl (.inl rfl)
    · simp [hw]
  have hstop : ∀ c : Char, run numberStep .start (text ++ [c]) = none ↔
      ¬NumberText (text ++ [c]) := by
    intro c
    rw [← Option.not_isSome_iff_eq_none, hread]
    simp
  rw [scanNumber_eq_munch hminus, munch_eq_iff, hread]
  simp only [hstop]

/-! ### The First Token -/

/-- What a number can begin with. -/
theorem NumberText.first (h : NumberText (c :: w)) : (numberStep .start c).isSome := by
  obtain ⟨-, hrun⟩ := numberText_iff_run.mp h
  rw [run] at hrun
  cases hstep : numberStep .start c with
  | none => simp [hstep] at hrun
  | some q => rfl

theorem NumberText.skipWs (h : NumberText text) (rest : List Char) :
    skipWs (text ++ rest) = text ++ rest := by
  obtain ⟨c, w, rfl⟩ := List.exists_cons_of_ne_nil h.1
  apply skipWs_of_ne
  rintro rfl
  exact absurd h.first (by decide)

theorem Op.char_ne_space (o : Op) : o.char ≠ ' ' := by cases o <;> decide

/-- **The first token of a string** is in front, behind the spaces. -/
theorem Spells.cons_inv (h : Spells (tok :: toks) s) : ∃ rest, skipWs s = tok.text ++ rest ∧
    Spells toks rest ∧ ∀ text, tok = .number text → NumberText text ∧
      ∀ c ∈ rest.head?, ¬NumberText (text ++ [c]) := by
  generalize hall : tok :: toks = all at h
  induction h with
  | nil => exact absurd hall (by simp)
  | space _ ih => exact ih hall
  | @op o toks' s hs =>
    obtain ⟨rfl, rfl⟩ := List.cons.inj hall
    exact ⟨s, skipWs_of_ne o.char_ne_space, hs, by simp⟩
  | @lparen toks' s hs =>
    obtain ⟨rfl, rfl⟩ := List.cons.inj hall
    exact ⟨s, skipWs_of_ne (by decide), hs, by simp⟩
  | @rparen toks' s hs =>
    obtain ⟨rfl, rfl⟩ := List.cons.inj hall
    exact ⟨s, skipWs_of_ne (by decide), hs, by simp⟩
  | @number text s toks' htext hstop hs =>
    obtain ⟨rfl, rfl⟩ := List.cons.inj hall
    refine ⟨s, htext.skipWs s, hs, ?_⟩
    intro text' heq
    obtain rfl := Token.number.inj heq
    exact ⟨htext, hstop⟩

/-- Without tokens there are only spaces. -/
theorem Spells.nil_inv (h : Spells [] s) : Calculator.skipWs s = [] := by
  generalize hall : ([] : List Token) = all at h
  induction h with
  | nil => rfl
  | space _ ih => exact ih hall
  | op | lparen | rparen | number => exact absurd hall (by simp)

/-- Spaces in front do not matter. -/
theorem Spells.of_skipWs (h : Spells toks (Calculator.skipWs s)) : Spells toks s := by
  induction s with
  | nil => exact h
  | cons c s ih =>
    by_cases hc : c = ' '
    · subst hc
      exact .space (ih h)
    · rwa [skipWs_of_ne hc] at h

theorem Spells.to_skipWs (h : Spells toks s) : Spells toks (Calculator.skipWs s) := by
  induction h with
  | nil => exact .nil
  | space _ ih => exact ih
  | op o h => rw [skipWs_of_ne o.char_ne_space]; exact .op o h
  | lparen h => rw [skipWs_of_ne (by decide)]; exact .lparen h
  | rparen h => rw [skipWs_of_ne (by decide)]; exact .rparen h
  | number htext hstop h => rw [htext.skipWs]; exact .number htext hstop h

/-- A space ends every token. -/
theorem spells_spaced {w : List Token} (h : ∀ text, .number text ∈ w → NumberText text) :
    Spells w (spaced w) := by
  induction w with
  | nil => exact .nil
  | cons tok w ih =>
    have hrest : Spells w (' ' :: spaced w) :=
      .space (ih fun text hmem => h text (List.mem_cons_of_mem _ hmem))
    have hcons : spaced (tok :: w) = tok.text ++ ' ' :: spaced w := by simp [spaced]
    rw [hcons]
    cases tok with
    | op o => exact .op o hrest
    | lparen => exact .lparen hrest
    | rparen => exact .rparen hrest
    | number text =>
      refine .number (h text (by simp)) ?_ hrest
      intro c hc
      obtain rfl : ' ' = c := Option.some.inj hc
      rw [numberText_iff_run, run_concat]
      rintro ⟨-, hrun⟩
      cases hq : run numberStep .start text with
      | none => simp [hq] at hrun
      | some q =>
        rw [hq, Option.bind_some] at hrun
        revert hrun
        cases q <;> decide

end Calculator

end Forge
