import Forge.Framework.System
import Mathlib.Algebra.Order.Field.Basic
import Mathlib.Algebra.Order.BigOperators.Group.List
import Mathlib.Tactic.Linarith
import Mathlib.Tactic.Ring

/-! # Buckets

  An account that grows with time at a fixed rate, from which amounts are
  taken, and which may lose some of what is in it at any moment. It has no
  capacity of its own:

  - `Bucket.balance`: what has been taken is covered by the first level
    and by the time that has passed;
  - `Bucket.window_le`: when amounts are taken only at levels up to `cap`,
    what is taken in any stretch of time is covered by `cap` and by the
    length of the stretch.
-/

namespace LTS

/-- The level, the time, and what was taken at what time, oldest first. -/
structure Bucket (𝕜 : Type*) where
  level : 𝕜
  clock : 𝕜
  taken : List (𝕜 × 𝕜)

namespace Bucket

variable {𝕜 : Type*}

/-- What can happen to a bucket. -/
inductive Event (𝕜 : Type*) where
  | wait (d : 𝕜)
  /-- The level falls to `x`. -/
  | spill (x : 𝕜)
  | take (a : 𝕜)

/-- What a list of times and amounts adds up to. -/
def sum [AddMonoid 𝕜] (taken : List (𝕜 × 𝕜)) : 𝕜 := (taken.map Prod.snd).sum

/-- What was taken from the time `t₁` on and no later than `t₂`. -/
def between [LE 𝕜] [DecidableLE 𝕜] (t₁ t₂ : 𝕜) (taken : List (𝕜 × 𝕜)) : List (𝕜 × 𝕜) :=
  taken.filter fun x => decide (t₁ ≤ x.1) && decide (x.1 ≤ t₂)

@[simp] theorem sum_nil [AddMonoid 𝕜] : sum ([] : List (𝕜 × 𝕜)) = 0 := rfl

@[simp] theorem sum_snoc [AddMonoid 𝕜] (taken : List (𝕜 × 𝕜)) (t a : 𝕜) :
    sum (taken ++ [(t, a)]) = sum taken + a := by
  simp [sum]

/-- A stretch that ends after all that was taken is a stretch without end. -/
theorem between_eq_filter [LE 𝕜] [DecidableLE 𝕜] {t₁ t₂ : 𝕜}
    {taken : List (𝕜 × 𝕜)} (h : ∀ x ∈ taken, x.1 ≤ t₂) :
    between t₁ t₂ taken = taken.filter fun x => t₁ ≤ x.1 := by
  unfold between
  apply List.filter_congr
  intro x hx
  simp [h x hx]

variable [Field 𝕜] [LinearOrder 𝕜]

/-- The steps of a bucket that grows by `rate` per unit of time. -/
inductive Step (rate : 𝕜) (b : Bucket 𝕜) : Event 𝕜 → Bucket 𝕜 → Prop where
  | wait {d : 𝕜} : 0 ≤ d →
      Step rate b (.wait d) { b with level := b.level + rate * d, clock := b.clock + d }
  | spill {x : 𝕜} : 0 ≤ x → x ≤ b.level → Step rate b (.spill x) { b with level := x }
  | take {a : 𝕜} : 0 ≤ a → a ≤ b.level →
      Step rate b (.take a)
        { b with level := b.level - a, taken := b.taken ++ [(b.clock, a)] }

/-- A bucket that starts with `level` at the time `start`. -/
def system (rate level start : 𝕜) : System (Bucket 𝕜) (Event 𝕜) where
  init := fun b => b = ⟨level, start, []⟩
  step := Step rate

variable [IsStrictOrderedRing 𝕜] {rate level start cap : 𝕜} {b b' : Bucket 𝕜} {e : Event 𝕜}
  {tr : List (Event 𝕜)}

/-! ### Balance -/

/-- **Balance.** What is in the bucket and what has been taken from it is
    covered by the first level and the time that has passed. -/
theorem balance (hrun : (system rate level start).Run tr b) :
    b.level + sum b.taken ≤ level + rate * (b.clock - start) := by
  apply hrun.invariant (P := fun b => b.level + sum b.taken ≤ level + rate * (b.clock - start))
  · intro b hb
    have hb' : b = ⟨level, start, []⟩ := hb
    simp [hb']
  · intro b e b' hb hs
    cases hs with
    | wait _ =>
      simp only at hb ⊢
      linarith
    | spill _ hle =>
      simp only at hb ⊢
      linarith
    | take _ _ =>
      simp only [sum_snoc] at hb ⊢
      linarith

/-! ### Stretches of time -/

/-- Only levels up to `cap` are taken from. -/
def Capped (cap : 𝕜) (b : Bucket 𝕜) : Event 𝕜 → Prop
  | .take _ => b.level ≤ cap
  | _ => True

/-- The invariant of the capped runs. -/
structure Bounded (rate cap : 𝕜) (b : Bucket 𝕜) : Prop where
  nonneg : 0 ≤ b.level
  past : ∀ x ∈ b.taken, x.1 ≤ b.clock
  /-- From the first amount taken since `t` on, the level is covered too. -/
  since : ∀ t, (∀ x ∈ b.taken, x.1 < t) ∨
    b.level + sum (b.taken.filter fun x => t ≤ x.1) ≤ cap + rate * (b.clock - t)
  window : ∀ t₁ t₂, t₁ ≤ t₂ → sum (between t₁ t₂ b.taken) ≤ cap + rate * (t₂ - t₁)

/-- An amount is taken: what was taken since `t` is still covered. -/
theorem Bounded.since_take (hb : Bounded rate cap b) (hrate : 0 ≤ rate) (hcap : b.level ≤ cap)
    {a t : 𝕜} (ht : t ≤ b.clock) :
    b.level - a + sum ((b.taken ++ [(b.clock, a)]).filter fun x => t ≤ x.1) ≤
      cap + rate * (b.clock - t) := by
  have hnew : (b.taken ++ [(b.clock, a)]).filter (fun x => decide (t ≤ x.1)) =
      b.taken.filter (fun x => decide (t ≤ x.1)) ++ [(b.clock, a)] := by
    simp [ht]
  rw [hnew, sum_snoc]
  obtain hnone | hsince := hb.since t
  · -- this is the first amount since `t`
    have hempty : b.taken.filter (fun x => decide (t ≤ x.1)) = [] := by
      rw [List.filter_eq_nil_iff]
      intro x hx
      simpa using hnone x hx
    have hgrown : 0 ≤ rate * (b.clock - t) := mul_nonneg hrate (sub_nonneg.mpr ht)
    rw [hempty, sum_nil]
    linarith
  · linarith

/-- **Step of the bound.** -/
theorem Bounded.step (hrate : 0 ≤ rate) (hb : Bounded rate cap b) (hok : Capped cap b e)
    (hs : Step rate b e b') : Bounded rate cap b' := by
  cases hs with
  | @wait d hd =>
    have hgrown : 0 ≤ rate * d := mul_nonneg hrate hd
    refine ⟨?_, ?_, ?_, hb.window⟩
    · exact add_nonneg hb.nonneg hgrown
    · intro x hx
      exact (hb.past x hx).trans (le_add_of_nonneg_right hd)
    · intro t
      refine (hb.since t).imp_right fun hsince => ?_
      simp only
      linarith
  | spill hx hle =>
    refine ⟨hx, hb.past, ?_, hb.window⟩
    intro t
    refine (hb.since t).imp_right fun hsince => ?_
    simp only
    linarith
  | @take a ha hle =>
    have hpast : ∀ x ∈ b.taken ++ [(b.clock, a)], x.1 ≤ b.clock := by
      intro x hx
      obtain hx | hx := List.mem_append.mp hx
      · exact hb.past x hx
      · rw [List.mem_singleton.mp hx]
    refine ⟨sub_nonneg.mpr hle, hpast, ?_, ?_⟩
    · intro t
      by_cases ht : t ≤ b.clock
      · exact .inr (hb.since_take hrate hok ht)
      · exact .inl fun x hx => lt_of_le_of_lt (hpast x hx) (not_le.mp ht)
    · intro t₁ t₂ ht
      show sum (between t₁ t₂ (b.taken ++ [(b.clock, a)])) ≤ _
      by_cases hin : t₁ ≤ b.clock ∧ b.clock ≤ t₂
      · -- nothing was taken later than now, so that the stretch may end now
        have hall := hb.since_take (a := a) hrate hok hin.1
        rw [between_eq_filter fun x hx => (hpast x hx).trans hin.2]
        have hmono : rate * (b.clock - t₁) ≤ rate * (t₂ - t₁) :=
          mul_le_mul_of_nonneg_left (sub_le_sub_right hin.2 t₁) hrate
        have hrest : 0 ≤ b.level - a := sub_nonneg.mpr hle
        linarith
      · have hsame : between t₁ t₂ (b.taken ++ [(b.clock, a)]) = between t₁ t₂ b.taken := by
          unfold between
          rw [List.filter_append, List.append_right_eq_self]
          simpa [not_and_or] using hin
        rw [hsame]
        exact hb.window t₁ t₂ ht

/-- **Stretches of time.** When amounts are taken only at levels up to
    `cap`, what is taken from `t₁` to `t₂` is covered by `cap` and by the
    time between the two. -/
theorem window_le (hrate : 0 ≤ rate) (hlevel : 0 ≤ level) (hcap : 0 ≤ cap)
    (hrun : ((system rate level start).restrict (Capped cap)).Run tr b) {t₁ t₂ : 𝕜}
    (ht : t₁ ≤ t₂) : sum (between t₁ t₂ b.taken) ≤ cap + rate * (t₂ - t₁) := by
  have hbounded : Bounded rate cap b := by
    apply hrun.invariant
    · intro b hb
      have hb' : b = ⟨level, start, []⟩ := hb
      subst hb'
      refine ⟨hlevel, by simp, fun t => .inl (by simp), ?_⟩
      intro t₁ t₂ ht
      exact add_nonneg hcap (mul_nonneg hrate (sub_nonneg.mpr ht))
    · intro b e b' hb hs
      exact hb.step hrate hs.1 hs.2
  exact hbounded.window t₁ t₂ ht

end Bucket

end LTS
