import Forge.Framework.System
import Mathlib.Logic.Relation

/-! # Runs Whose Steps Commute

  When any two steps of a state may be taken in either order, the order in
  which a run takes its steps does not matter for the state it ends in.
-/

namespace LTS

universe u v

namespace System

variable {State : Type u} {Label : Type v}

/-- Two different steps of a state that a run reaches can be taken one
    after the other, in either order. -/
def Commutes (sys : System State Label) : Prop :=
  ∀ s l₁ l₂ s₁ s₂, sys.Reachable s → sys.step s l₁ s₁ → sys.step s l₂ s₂ →
    s₁ = s₂ ∨ ∃ s₃, sys.step s₁ l₂ s₃ ∧ sys.step s₂ l₁ s₃

/-- No step is possible. -/
def Final (sys : System State Label) (s : State) : Prop := ∀ l s', ¬sys.step s l s'

/-- A step of a state that a run reaches. -/
def Moves (sys : System State Label) (s s' : State) : Prop :=
  sys.Reachable s ∧ ∃ l, sys.step s l s'

theorem Run.reflTransGen {sys : System State Label} {s₀ : State}
    (hinit : ∀ s, sys.init s → s = s₀) {tr : List Label} {s : State} (hrun : sys.Run tr s) :
    Relation.ReflTransGen sys.Moves s₀ s := by
  induction hrun with
  | start hs =>
    rw [hinit _ hs]
  | snoc hr hs ih => exact ih.tail ⟨⟨_, hr⟩, _, hs⟩

/-- **Confluence**: if the steps commute, all runs that cannot go on have
    ended in the same state. -/
theorem Commutes.final_unique {sys : System State Label} (hc : sys.Commutes) {s₀ : State}
    (hinit : ∀ s, sys.init s → s = s₀) {tr tr' : List Label} {s s' : State}
    (hrun : sys.Run tr s) (hrun' : sys.Run tr' s') (hs : sys.Final s) (hs' : sys.Final s') :
    s = s' := by
  have hone : ∀ a b c, sys.Moves a b → sys.Moves a c →
      ∃ d, Relation.ReflGen sys.Moves b d ∧ Relation.ReflTransGen sys.Moves c d := by
    rintro a b c ⟨ha, l₁, hb⟩ ⟨-, l₂, hc'⟩
    obtain rfl | ⟨d, hbd, hcd⟩ := hc a l₁ l₂ b c ha hb hc'
    · exact ⟨b, .refl, .refl⟩
    · exact ⟨d, .single ⟨ha.step hb, l₂, hbd⟩, .single ⟨ha.step hc', l₁, hcd⟩⟩
  -- a state without steps is its own only successor
  have hstuck : ∀ {a b}, sys.Final a → Relation.ReflTransGen sys.Moves a b → a = b := by
    intro a b ha hab
    obtain rfl | ⟨c, ⟨-, l, hstep⟩, -⟩ := hab.cases_head
    · rfl
    · exact absurd hstep (ha l c)
  obtain ⟨d, hsd, hsd'⟩ := Relation.church_rosser hone (hrun.reflTransGen hinit)
    (hrun'.reflTransGen hinit)
  rw [hstuck hs hsd, hstuck hs' hsd']

end System

end LTS
