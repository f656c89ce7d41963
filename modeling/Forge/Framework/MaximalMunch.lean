import Mathlib.Data.List.Basic

/-! # Maximal Munch

  An automaton that reads a list from the front as far as it can:

  - `run`: the state after a word, if the automaton reads all of it;
  - `munch`: the longest part in front that it reads, and the rest;
  - `munch_eq_iff`: that part is read, and no longer one is.
-/

namespace Munch

variable {σ α : Type*} {step : σ → α → Option σ} {q : σ} {l w rest : List α}

/-- The state after a word. -/
def run (step : σ → α → Option σ) : σ → List α → Option σ
  | q, [] => some q
  | q, a :: l => (step q a).bind fun q' => run step q' l

/-- The part in front that is read, and what is left. -/
def munch (step : σ → α → Option σ) : σ → List α → List α × List α
  | _, [] => ([], [])
  | q, a :: l =>
      match step q a with
      | some q' => (a :: (munch step q' l).1, (munch step q' l).2)
      | none => ([], a :: l)

theorem munch_cons_some {a : α} {q' : σ} (h : step q a = some q') :
    munch step q (a :: l) = (a :: (munch step q' l).1, (munch step q' l).2) := by
  rw [munch, h]

theorem munch_cons_none {a : α} (h : step q a = none) :
    munch step q (a :: l) = ([], a :: l) := by
  rw [munch, h]

theorem run_concat (w : List α) (a : α) :
    run step q (w ++ [a]) = (run step q w).bind fun q' => step q' a := by
  induction w generalizing q with
  | nil => cases h : step q a <;> simp [run, h]
  | cons b w ih =>
    rw [List.cons_append, run, run]
    cases step q b with
    | none => rfl
    | some q' => exact ih

/-- What is in front and what is left make up the list. -/
theorem munch_append : (munch step q l).1 ++ (munch step q l).2 = l := by
  induction l generalizing q with
  | nil => rfl
  | cons a l ih =>
    cases h : step q a with
    | some q' => rw [munch_cons_some h, List.cons_append, ih]
    | none => rw [munch_cons_none h, List.nil_append]

/-- A word that is read, with something behind it that is not. -/
theorem munch_of_run {q' : σ} (hrun : run step q w = some q')
    (hstop : ∀ a ∈ rest.head?, step q' a = none) : munch step q (w ++ rest) = (w, rest) := by
  induction w generalizing q with
  | nil =>
    obtain rfl := Option.some.inj hrun
    cases rest with
    | nil => rfl
    | cons a rest => exact munch_cons_none (hstop a rfl)
  | cons a w ih =>
    obtain ⟨q₁, hstep, hrest⟩ := Option.bind_eq_some_iff.mp hrun
    rw [List.cons_append, munch_cons_some hstep, ih hrest]

/-- The part in front is read, and the automaton stops behind it. -/
theorem run_munch : ∃ q', run step q (munch step q l).1 = some q' ∧
    ∀ a ∈ (munch step q l).2.head?, step q' a = none := by
  induction l generalizing q with
  | nil => exact ⟨q, rfl, by simp [munch]⟩
  | cons a l ih =>
    cases h : step q a with
    | some q₁ =>
      obtain ⟨q', hrun, hstop⟩ := @ih q₁
      rw [munch_cons_some h]
      exact ⟨q', by rw [run, h, Option.bind_some, hrun], hstop⟩
    | none =>
      rw [munch_cons_none h]
      refine ⟨q, rfl, ?_⟩
      intro b hb
      obtain rfl : a = b := Option.some.inj hb
      exact h

/-- **The longest word.** What `munch` takes is read, and with the next
    entry it is not. -/
theorem munch_eq_iff : munch step q l = (w, rest) ↔
    l = w ++ rest ∧ (run step q w).isSome ∧ ∀ a ∈ rest.head?, run step q (w ++ [a]) = none := by
  constructor
  · intro h
    obtain ⟨q', hrun, hstop⟩ := @run_munch _ _ step q l
    rw [h] at hrun hstop
    refine ⟨by rw [← @munch_append _ _ step q l, h], by rw [hrun]; rfl, ?_⟩
    intro a ha
    rw [run_concat, hrun]
    exact hstop a ha
  · rintro ⟨rfl, hread, hstop⟩
    obtain ⟨q', hrun⟩ := Option.isSome_iff_exists.mp hread
    refine munch_of_run hrun ?_
    intro a ha
    have hnone := hstop a ha
    rwa [run_concat, hrun] at hnone

end Munch
