import Forge.Framework.Refinement
import Mathlib.Algebra.BigOperators.Group.Finset.Basic
import Mathlib.Data.Fintype.BigOperators
import Mathlib.Tactic.Abel

/-! # Atomic Objects

  The canonical atomic object of a sequential specification: every
  operation is called, takes effect in one indivisible step between its
  call and its return, and returns the result of that step. A concrete
  implementation that refines this system is linearizable.

  The second half is a conservation law. When the sequential operations
  only move a quantity between the caller, the object and the results,
  nothing is created or lost in any concurrent history either: what was
  put in by the calls is what came out by the returns, plus what is
  still in the object or in the hands of the running operations.
-/

namespace LTS

/-- A sequential specification: `apply o op r o'` says that `op` may take
    the object from `o` to `o'` with result `r`. -/
structure SequentialSpec (Obj Op Res : Type*) where
  start : Obj
  apply : Obj → Op → Res → Obj → Prop

namespace Atomic

variable {Obj Thread Op Res : Type*}

/-- Where a thread is with its current operation. -/
inductive Status (Op Res : Type*) where
  | idle
  /-- Called, no effect yet. -/
  | pending (op : Op)
  /-- The effect has taken place; the result is on its way. -/
  | done (res : Res)

/-- The state of an atomic object. -/
structure State (Obj Thread Op Res : Type*) where
  obj : Obj
  status : Thread → Status Op Res

/-- The events a client sees. -/
inductive Event (Thread Op Res : Type*) where
  | call (p : Thread) (op : Op)
  | ret (p : Thread) (res : Res)

/-- The steps of an atomic object; `lin` is internal. -/
inductive Label (Thread Op Res : Type*) where
  | call (p : Thread) (op : Op)
  | lin (p : Thread)
  | ret (p : Thread) (res : Res)

/-- The event of a label. -/
def Label.event : Label Thread Op Res → Option (Event Thread Op Res)
  | .call p op => some (.call p op)
  | .lin _ => none
  | .ret p res => some (.ret p res)

/-- The atomic object of a sequential specification. -/
def system [DecidableEq Thread] (spec : SequentialSpec Obj Op Res) :
    System (State Obj Thread Op Res) (Label Thread Op Res) where
  init := fun s => s.obj = spec.start ∧ ∀ p, s.status p = .idle
  step := fun s l s' =>
    match l with
    | .call p op =>
        s.status p = .idle ∧
        s' = { s with status := Function.update s.status p (.pending op) }
    | .lin p =>
        ∃ op res, s.status p = .pending op ∧
        spec.apply s.obj op res s'.obj ∧
        s'.status = Function.update s.status p (.done res)
    | .ret p res =>
        s.status p = .done res ∧
        s' = { s with status := Function.update s.status p .idle }

/-! ### The conservation law -/

section conservation

variable {M : Type*} [AddCommMonoid M]

/-- What the calls of a history put in. -/
def putIn (input : Op → M) (h : List (Event Thread Op Res)) : M :=
  (h.map fun e => match e with | .call _ op => input op | .ret _ _ => 0).sum

/-- What the returns of a history took out. -/
def takenOut (output : Res → M) (h : List (Event Thread Op Res)) : M :=
  (h.map fun e => match e with | .call _ _ => 0 | .ret _ res => output res).sum

@[simp] theorem putIn_nil (input : Op → M) :
    putIn input ([] : List (Event Thread Op Res)) = 0 := rfl

@[simp] theorem takenOut_nil (output : Res → M) :
    takenOut output ([] : List (Event Thread Op Res)) = 0 := rfl

theorem putIn_snoc (input : Op → M) (h : List (Event Thread Op Res))
    (e : Event Thread Op Res) :
    putIn input (h ++ [e]) = putIn input h +
      match e with | .call _ op => input op | .ret _ _ => 0 := by
  simp [putIn]

theorem takenOut_snoc (output : Res → M) (h : List (Event Thread Op Res))
    (e : Event Thread Op Res) :
    takenOut output (h ++ [e]) = takenOut output h +
      match e with | .call _ _ => 0 | .ret _ res => output res := by
  simp [takenOut]

/-- What a running operation holds. -/
def Status.amount (input : Op → M) (output : Res → M) : Status Op Res → M
  | .idle => 0
  | .pending op => input op
  | .done res => output res

@[simp] theorem Status.amount_idle (input : Op → M) (output : Res → M) :
    (Status.idle : Status Op Res).amount input output = 0 := rfl

@[simp] theorem Status.amount_pending (input : Op → M) (output : Res → M) (op : Op) :
    (Status.pending op : Status Op Res).amount input output = input op := rfl

@[simp] theorem Status.amount_done (input : Op → M) (output : Res → M) (res : Res) :
    (Status.done res : Status Op Res).amount input output = output res := rfl

/-- What all running operations hold. -/
def inHand [Fintype Thread] (input : Op → M) (output : Res → M)
    (status : Thread → Status Op Res) : M :=
  ∑ p, (status p).amount input output

/-- Changing one thread's status trades its old amount for the new one. -/
theorem inHand_update [DecidableEq Thread] [Fintype Thread] (input : Op → M) (output : Res → M)
    (f : Thread → Status Op Res) (p : Thread) (x : Status Op Res) :
    inHand input output (Function.update f p x) + (f p).amount input output
      = inHand input output f + x.amount input output := by
  have hrest : ∑ q ∈ Finset.univ.erase p, (Function.update f p x q).amount input output
      = ∑ q ∈ Finset.univ.erase p, (f q).amount input output := by
    refine Finset.sum_congr rfl fun q hq => ?_
    rw [Function.update_of_ne (Finset.ne_of_mem_erase hq)]
  unfold inHand
  rw [← Finset.add_sum_erase _ _ (Finset.mem_univ p),
    ← Finset.add_sum_erase _ (fun q => (f q).amount input output) (Finset.mem_univ p),
    hrest, Function.update_self]
  abel

/-- **Conservation**: if every sequential operation keeps the balance
    `held + input = held' + output`, then in every concurrent history the
    inputs of the calls are exactly the outputs of the returns plus what
    is held by the object and by the running operations. -/
theorem conservation [DecidableEq Thread] [Fintype Thread] [IsCancelAdd M]
    {spec : SequentialSpec Obj Op Res} {input : Op → M} {output : Res → M} (held : Obj → M)
    (hstart : held spec.start = 0)
    (happly : ∀ o op res o', spec.apply o op res o' →
      held o + input op = held o' + output res)
    {tr : List (Label Thread Op Res)} {s : State Obj Thread Op Res}
    (hrun : (system spec).Run tr s) :
    putIn input (observe Label.event tr)
      = takenOut output (observe Label.event tr) + inHand input output s.status
        + held s.obj := by
  induction hrun with
  | start hs =>
    obtain ⟨hobj, hidle⟩ := hs
    simp [inHand, hobj, hstart, hidle]
  | @snoc tr s s' l _ hstep ih =>
    cases l with
    | call p op =>
      obtain ⟨hidle, rfl⟩ := hstep
      have hsum := inHand_update input output s.status p (.pending op)
      rw [hidle, Status.amount_idle, add_zero, Status.amount_pending] at hsum
      have hobs : observe Label.event (tr ++ [.call p op])
          = observe Label.event tr ++ [.call p op] := observe_append _ _ _
      rw [hobs, putIn_snoc, takenOut_snoc, ih, hsum]
      dsimp only
      abel
    | lin p =>
      obtain ⟨op, res, hpend, happ, hst⟩ := hstep
      have hbal := happly _ _ _ _ happ
      have hsum := inHand_update input output s.status p (.done res)
      rw [hpend, Status.amount_pending, Status.amount_done] at hsum
      have hobs : observe Label.event (tr ++ [.lin p]) = observe Label.event tr :=
        observe_snoc_none rfl tr
      rw [hobs, ih, hst]
      -- the input of `op` moves from the caller into the object, the result out of it
      refine add_right_cancel (b := input op + output res) ?_
      generalize takenOut output (observe Label.event tr) = t
      calc t + inHand input output s.status + held s.obj + (input op + output res)
          = t + (inHand input output s.status + output res) + (held s.obj + input op) := by
            abel
        _ = t + (inHand input output (Function.update s.status p (.done res)) + input op)
              + (held s'.obj + output res) := by
            rw [hsum, hbal]
        _ = _ := by abel
    | ret p res =>
      obtain ⟨hdone, rfl⟩ := hstep
      have hsum := inHand_update input output s.status p .idle
      rw [hdone, Status.amount_idle, add_zero, Status.amount_done] at hsum
      have hobs : observe Label.event (tr ++ [.ret p res])
          = observe Label.event tr ++ [.ret p res] := observe_append _ _ _
      rw [hobs, putIn_snoc, takenOut_snoc, ih, ← hsum]
      dsimp only
      abel

end conservation

end Atomic

end LTS
