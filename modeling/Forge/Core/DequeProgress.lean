import Forge.Core.DequeInvariant
import Forge.Framework.Contention
import Mathlib.Algebra.Ring.Int.Defs

/-! # The Work-Stealing Deque — Progress

  What `push`, `pop` and `steal` (`core/work_stealing_deque.h`) cost in any
  interleaving:

  - `push_amortized`: the owner makes thirteen accesses for each `push` and
    seven for each `pop` at most, the copying of the growing buffers
    included, and the retired buffers are smaller together than the
    current one;
  - `steals_lost_le`: a `steal` makes five accesses at most, and loses its
    compare-exchange only to somebody who has taken an element, each time
    to another one.

  A buffer grows when it is full, so the slots that are copied are paid
  for by the slots that are new (`State.allotted`).
-/

open LTS

namespace Forge.WorkStealingDeque

variable {T Thief : Type*} {s s' : State T Thief} {i : Thief}

/-! ### The Owner -/

/-- The accesses the owner's call still makes, when the buffer does not
    grow once more. -/
def OwnerPC.left : OwnerPC T → Int
  | .idle | .pushReturn | .popReturn _ => 0
  | .pushLoadBottom _ => 5
  | .pushLoadTop _ _ => 4
  | .pushLoadBuffer _ _ _ => 3
  | .growGet _ b _ _ _ i => 2 * (b - i) + 4
  | .growPut _ b _ _ _ i _ => 2 * (b - i) + 3
  | .publish _ _ _ _ _ => 3
  | .pushPut _ _ _ => 2
  | .pushStoreBottom _ _ => 1
  | .popLoadBottom => 7
  | .popLoadBuffer _ => 6
  | .popStoreBottom _ _ => 5
  | .popLoadTop _ _ => 4
  | .popGet _ _ _ => 3
  | .popCas _ _ => 2
  | .popRestore _ _ | .popEmpty _ => 1

/-- The owner is filling a new buffer. -/
def OwnerPC.growing : OwnerPC T → Bool
  | .growGet _ _ _ _ _ _ | .growPut _ _ _ _ _ _ _ | .publish _ _ _ _ _ => true
  | _ => false

/-- A `push` whose element is not yet in the deque. -/
def OwnerPC.pushing : OwnerPC T → Bool
  | .pushLoadBottom _ | .pushLoadTop _ _ | .pushLoadBuffer _ _ _ | .growGet _ _ _ _ _ _
  | .growPut _ _ _ _ _ _ _ | .publish _ _ _ _ _ | .pushPut _ _ _ | .pushStoreBottom _ _ => true
  | _ => false

/-- The capacity of the newest buffer. -/
def State.allotted (s : State T Thief) : Int :=
  if s.owner.growing then s.cur.cap * 2 else s.cur.cap

/-- The capacities of the retired buffers. -/
def State.retired (s : State T Thief) : Int := (s.old_buffers.map fun a => (s.heap a).cap).sum

/-- What the calls have still to pay for, less what the buffers have paid. -/
def State.potential (s : State T Thief) : Int := s.owner.left - 4 * s.allotted

/-- The elements there are, and the one that is being pushed. -/
def State.pushed (s : State T Thief) : Int := s.limit + s.owner.pushing.toNat

/-- A write into a slot keeps the capacities. -/
theorem cap_update_put (heap : ℕ → CircularBuffer T) (a a' : ℕ) (idx : Int) (v : T) :
    (Function.update heap a ((heap a).put idx v) a').cap = (heap a').cap := by
  by_cases ha : a' = a
  · subst ha
    simp
  · rw [Function.update_of_ne ha]

/-- What an access of the owner does to the accounts. -/
structure OwnerPaid (s s' : State T Thief) : Prop where
  paid : 1 + s'.potential ≤ s.potential
  pushed_le : s'.pushed ≤ s.pushed
  allotted : s'.allotted = s.allotted ∨ s'.allotted ≤ 2 * s.pushed - 2
  retired : (∀ a ∈ s.old_buffers, a < s.fresh) →
    s'.retired - s'.cur.cap = s.retired - s.cur.cap ∧ ∀ a ∈ s'.old_buffers, a < s'.fresh

/-- An access that neither allocates nor retires a buffer. -/
theorem OwnerPaid.of_same (hcaps : ∀ a, (s'.heap a).cap = (s.heap a).cap)
    (hbuf : s'.buffer = s.buffer ∧ s'.old_buffers = s.old_buffers ∧ s'.fresh = s.fresh)
    (hgrow : s'.owner.growing = s.owner.growing) (hleft : 1 + s'.owner.left ≤ s.owner.left)
    (hpushed : s'.pushed ≤ s.pushed) : OwnerPaid s s' := by
  obtain ⟨hbuffer, hold, hfresh⟩ := hbuf
  have hcur : s'.cur.cap = s.cur.cap := by rw [State.cur, State.cur, hbuffer, hcaps]
  have hallot : s'.allotted = s.allotted := by rw [State.allotted, State.allotted, hgrow, hcur]
  refine ⟨?_, hpushed, .inl hallot, ?_⟩
  · rw [State.potential, State.potential, hallot]
    omega
  · intro hlt
    refine ⟨?_, by rwa [hold, hfresh]⟩
    rw [hcur]
    simp only [State.retired, hold, hcaps]

/-- `grow` allocates the new buffer. -/
theorem paid_startGrow [Inhabited T] (h : Inv s) {v : T} {b t : Int}
    (hpc : s.owner = .pushLoadBuffer v b t) (hfull : b - t ≥ s.cur.cap) :
    OwnerPaid s { s with
      heap := Function.update s.heap s.fresh (.new (s.cur.cap * 2))
      fresh := s.fresh + 1
      owner := .growGet v b t s.buffer s.fresh t } := by
  have hown := h.owner_ok
  simp only [OwnerOk, hpc] at hown
  obtain ⟨hb, ht, -, hfits⟩ := hown
  have hpos := h.cur_cap_pos
  have hbuf : s.buffer < s.fresh := lt_of_lt_of_le h.buffer_lt h.published_le
  have hold : ∀ a, a < s.fresh →
      Function.update s.heap s.fresh (.new (s.cur.cap * 2)) a = s.heap a :=
    fun a ha => Function.update_of_ne (Nat.ne_of_lt ha) _ _
  have hbefore : s.allotted = s.cur.cap := by simp [State.allotted, hpc, OwnerPC.growing]
  have hpushed : s.pushed = b + 1 := by simp [State.pushed, State.limit, hpc, OwnerPC.pushing, hb]
  have hcur : State.cur ({ s with
      heap := Function.update s.heap s.fresh (.new (s.cur.cap * 2))
      fresh := s.fresh + 1
      owner := .growGet v b t s.buffer s.fresh t } : State T Thief) = s.cur := hold s.buffer hbuf
  refine ⟨?_, ?_, .inr ?_, ?_⟩
  · have hafter : State.allotted ({ s with
        heap := Function.update s.heap s.fresh (.new (s.cur.cap * 2))
        fresh := s.fresh + 1
        owner := .growGet v b t s.buffer s.fresh t } : State T Thief) = s.cur.cap * 2 := by
      simp only [State.allotted, hcur, OwnerPC.growing, if_true]
    simp only [State.potential, hafter, hbefore, hpc, OwnerPC.left]
    omega
  · exact le_of_eq (by simp [State.pushed, State.limit, hpc, OwnerPC.pushing])
  · simp only [State.allotted, hcur, OwnerPC.growing, if_true, hpushed]
    omega
  · intro hlt
    refine ⟨?_, fun a ha => Nat.lt_succ_of_lt (hlt a ha)⟩
    have hsame : s.old_buffers.map (fun a =>
          (Function.update s.heap s.fresh (.new (s.cur.cap * 2)) a).cap) =
        s.old_buffers.map fun a => (s.heap a).cap :=
      List.map_congr_left fun a ha => by rw [hold a (hlt a ha)]
    simp only [State.retired, hcur, hsame]

/-- `push` retires the full buffer. -/
theorem paid_publish (h : Inv s) {v : T} {b t : Int} {buf newBuf : ℕ}
    (hpc : s.owner = .publish v b t buf newBuf) :
    OwnerPaid s { s with
      old_buffers := s.old_buffers ++ [buf]
      buffer := newBuf
      owner := .pushPut v b newBuf } := by
  have hown := h.owner_ok
  simp only [OwnerOk, hpc] at hown
  have hcap : (s.heap newBuf).cap = (s.heap s.buffer).cap * 2 := hown.cap_eq
  have hbuf : s.buffer < s.fresh := lt_of_lt_of_le h.buffer_lt h.published_le
  refine ⟨?_, ?_, .inl ?_, ?_⟩
  · simp only [State.potential, State.allotted, hpc, OwnerPC.growing, OwnerPC.left, State.cur, hcap]
    simp only [Bool.false_eq_true, if_false, if_true]
    omega
  · exact le_of_eq (by simp [State.pushed, State.limit, hpc, OwnerPC.pushing])
  · simp [State.allotted, hpc, OwnerPC.growing, State.cur, hcap]
  · intro hlt
    constructor
    · simp only [State.retired, State.cur, List.map_append, List.map_cons, List.map_nil,
        List.sum_append, List.sum_cons, List.sum_nil, hown.buf_eq, hcap]
      omega
    · intro a ha
      obtain hold | hnew := List.mem_append.mp ha
      · exact hlt a hold
      · rw [List.mem_singleton.mp hnew, hown.buf_eq]
        exact hbuf

/-- **Every access of the owner is paid for.** -/
theorem owner_paid [Inhabited T] (h : Inv s) (hs : ownerStep s = some s') : OwnerPaid s s' := by
  have hown := h.owner_ok
  cases hpc : s.owner with
  | idle | pushReturn | popReturn r => simp [ownerStep, hpc] at hs
  | pushLoadBottom v | pushLoadTop v b | popLoadBottom | popLoadBuffer b =>
    simp only [ownerStep, hpc, Option.some.injEq] at hs
    subst hs
    refine .of_same (fun _ => rfl) ⟨rfl, rfl, rfl⟩ ?_ ?_ (le_of_eq ?_)
    · simp [hpc, OwnerPC.growing]
    · simp [hpc, OwnerPC.left]
    · simp [State.pushed, State.limit, hpc, OwnerPC.pushing]
  | pushLoadBuffer v b t =>
    simp only [ownerStep, hpc] at hs
    split at hs
    · next hfull =>
      obtain rfl := Option.some.inj hs
      exact paid_startGrow h hpc hfull
    · obtain rfl := Option.some.inj hs
      refine .of_same (fun _ => rfl) ⟨rfl, rfl, rfl⟩ ?_ ?_ (le_of_eq ?_)
      · simp [hpc, OwnerPC.growing]
      · simp [hpc, OwnerPC.left]
      · simp [State.pushed, State.limit, hpc, OwnerPC.pushing]
  | growGet v b t buf newBuf i =>
    simp only [OwnerOk, hpc] at hown
    have hindex := hown.index.2
    simp only [ownerStep, hpc] at hs
    split at hs <;>
    · obtain rfl := Option.some.inj hs
      refine .of_same (fun _ => rfl) ⟨rfl, rfl, rfl⟩ ?_ ?_ (le_of_eq ?_)
      · simp [hpc, OwnerPC.growing]
      · simp only [hpc, OwnerPC.left]
        omega
      · simp [State.pushed, State.limit, hpc, OwnerPC.pushing]
  | growPut v b t buf newBuf i x =>
    simp only [ownerStep, hpc, Option.some.injEq] at hs
    subst hs
    refine .of_same (fun a => cap_update_put _ _ a _ _) ⟨rfl, rfl, rfl⟩ ?_ ?_ (le_of_eq ?_)
    · simp [hpc, OwnerPC.growing]
    · simp only [hpc, OwnerPC.left]
      omega
    · simp [State.pushed, State.limit, hpc, OwnerPC.pushing]
  | publish v b t buf newBuf =>
    simp only [ownerStep, hpc, Option.some.injEq] at hs
    subst hs
    exact paid_publish h hpc
  | pushPut v b buf =>
    simp only [ownerStep, hpc, Option.some.injEq] at hs
    subst hs
    refine .of_same (fun a => cap_update_put _ _ a _ _) ⟨rfl, rfl, rfl⟩ ?_ ?_ (le_of_eq ?_)
    · simp [hpc, OwnerPC.growing]
    · simp [hpc, OwnerPC.left]
    · simp [State.pushed, State.limit, hpc, OwnerPC.pushing]
  | pushStoreBottom v b =>
    simp only [OwnerOk, hpc] at hown
    simp only [ownerStep, hpc, Option.some.injEq] at hs
    subst hs
    refine .of_same (fun _ => rfl) ⟨rfl, rfl, rfl⟩ ?_ ?_ (le_of_eq ?_)
    · simp [hpc, OwnerPC.growing]
    · simp [hpc, OwnerPC.left]
    · simp [State.pushed, State.limit, hpc, OwnerPC.pushing, hown.1]
  | popStoreBottom b buf | popRestore t r | popEmpty t =>
    simp only [OwnerOk, hpc] at hown
    simp only [ownerStep, hpc, Option.some.injEq] at hs
    subst hs
    refine .of_same (fun _ => rfl) ⟨rfl, rfl, rfl⟩ ?_ ?_ (le_of_eq ?_)
    · simp [hpc, OwnerPC.growing]
    · simp [hpc, OwnerPC.left]
    · simp [State.pushed, State.limit, hpc, OwnerPC.pushing, hown.1]
  | popLoadTop b buf =>
    simp only [ownerStep, hpc] at hs
    split at hs
    · obtain rfl := Option.some.inj hs
      refine .of_same (fun _ => rfl) ⟨rfl, rfl, rfl⟩ ?_ ?_ ?_
      · simp [hpc, OwnerPC.growing]
      · simp [hpc, OwnerPC.left]
      · simp only [State.pushed, State.limit, hpc, OwnerPC.pushing]
        split <;> simp
    · obtain rfl := Option.some.inj hs
      refine .of_same (fun _ => rfl) ⟨rfl, rfl, rfl⟩ ?_ ?_ (le_of_eq ?_)
      · simp [hpc, OwnerPC.growing]
      · simp [hpc, OwnerPC.left]
      · simp [State.pushed, State.limit, hpc, OwnerPC.pushing]
  | popGet b buf t =>
    simp only [ownerStep, hpc] at hs
    split at hs
    · next heq =>
      obtain rfl := Option.some.inj hs
      refine .of_same (fun _ => rfl) ⟨rfl, rfl, rfl⟩ ?_ ?_ (le_of_eq ?_)
      · simp [hpc, OwnerPC.growing]
      · simp [hpc, OwnerPC.left]
      · simp [State.pushed, State.limit, hpc, OwnerPC.pushing, heq]
    · next hne =>
      obtain rfl := Option.some.inj hs
      refine .of_same (fun _ => rfl) ⟨rfl, rfl, rfl⟩ ?_ ?_ (le_of_eq ?_)
      · simp [hpc, OwnerPC.growing]
      · simp [hpc, OwnerPC.left]
      · simp [State.pushed, State.limit, hpc, OwnerPC.pushing, hne]
  | popCas t x =>
    simp only [ownerStep, hpc] at hs
    split at hs <;>
    · obtain rfl := Option.some.inj hs
      refine .of_same (fun _ => rfl) ⟨rfl, rfl, rfl⟩ ?_ ?_ (le_of_eq ?_)
      · simp [hpc, OwnerPC.growing]
      · simp [hpc, OwnerPC.left]
      · simp [State.pushed, State.limit, hpc, OwnerPC.pushing]

/-! ### Whole Runs -/

/-- An access of the owner. -/
def isOwner : Label T Thief → Bool
  | .owner => true
  | _ => false

def isPush : Label T Thief → Bool
  | .callPush _ => true
  | _ => false

def isPop : Label T Thief → Bool
  | .callPop => true
  | _ => false

/-- What a call brings in: the accesses it may make. -/
def callWorth (_ : State T Thief) (l : Label T Thief) : ℕ :=
  5 * (isPush l).toNat + 7 * (isPop l).toNat

/-- What any step does to the accounts. -/
structure StepPaid (s : State T Thief) (l : Label T Thief) (s' : State T Thief) : Prop where
  paid : (isOwner l).toNat + s'.potential ≤ s.potential + (callWorth s l : ℕ)
  pushed_le : s'.pushed ≤ s.pushed + (isPush l).toNat
  allotted : s'.allotted = s.allotted ∨ s'.allotted ≤ 2 * s.pushed
  retired : (∀ a ∈ s.old_buffers, a < s.fresh) →
    s'.retired - s'.cur.cap = s.retired - s.cur.cap ∧ ∀ a ∈ s'.old_buffers, a < s'.fresh

/-- A step that only moves the owner on, from one call to another. -/
theorem StepPaid.of_owner {l : Label T Thief} {pc : OwnerPC T}
    (hgrow : pc.growing = s.owner.growing)
    (hlimit : ({ s with owner := pc } : State T Thief).limit = s.limit)
    (hleft : (isOwner l).toNat + pc.left ≤ s.owner.left + (callWorth s l : ℕ))
    (hpushing : pc.pushing.toNat ≤ s.owner.pushing.toNat + (isPush l).toNat) :
    StepPaid s l { s with owner := pc } := by
  have hallot : ({ s with owner := pc } : State T Thief).allotted = s.allotted := by
    simp only [State.allotted, hgrow, State.cur]
  refine ⟨?_, ?_, .inl hallot, fun hlt => ⟨rfl, hlt⟩⟩
  · simp only [State.potential, hallot]
    omega
  · simp only [State.pushed, hlimit]
    omega

theorem StepPaid.of_thief [DecidableEq Thief] {l : Label T Thief} {top : Int} {pc : ThiefPC T}
    (hl : isOwner l = false) : StepPaid s l ({ s with top := top }.setThief i pc) := by
  refine ⟨?_, ?_, .inl rfl, fun hlt => ⟨rfl, hlt⟩⟩
  · rw [hl]
    show 0 + s.potential ≤ _
    omega
  · show s.pushed ≤ _
    omega

variable [Inhabited T] [DecidableEq T] [DecidableEq Thief]

/-- **Every step is paid for.** -/
theorem step_paid {l : Label T Thief} (h : Inv s) (hs : next s l = some s') :
    StepPaid s l s' := by
  cases l with
  | callPush v =>
    simp only [next, Option.ite_none_right_eq_some, Option.some.injEq] at hs
    obtain ⟨hpc, rfl⟩ := hs
    refine .of_owner ?_ ?_ ?_ ?_
    · simp [hpc, OwnerPC.growing]
    · simp [State.limit, hpc]
    · simp [hpc, OwnerPC.left, isOwner, callWorth, isPush, isPop]
    · simp [isPush, OwnerPC.pushing]
  | callPop =>
    simp only [next, Option.ite_none_right_eq_some, Option.some.injEq] at hs
    obtain ⟨hpc, rfl⟩ := hs
    refine .of_owner ?_ ?_ ?_ ?_
    · simp [hpc, OwnerPC.growing]
    · simp [State.limit, hpc]
    · simp [hpc, OwnerPC.left, isOwner, callWorth, isPush, isPop]
    · simp [OwnerPC.pushing]
  | retPush | retPop r =>
    simp only [next, Option.ite_none_right_eq_some, Option.some.injEq] at hs
    obtain ⟨hpc, rfl⟩ := hs
    refine .of_owner ?_ ?_ ?_ ?_
    · simp [hpc, OwnerPC.growing]
    · simp [State.limit, hpc]
    · simp [hpc, OwnerPC.left, isOwner]
    · simp [OwnerPC.pushing]
  | callSteal i | retSteal i r =>
    simp only [next, Option.ite_none_right_eq_some, Option.some.injEq] at hs
    obtain ⟨-, rfl⟩ := hs
    exact .of_thief rfl
  | owner =>
    obtain ⟨hpaid, hpushed, hallot, hretired⟩ := owner_paid h hs
    refine ⟨?_, ?_, hallot.imp id fun hle => by omega, hretired⟩
    · simp only [isOwner, callWorth, isPush, isPop, Bool.toNat_true, Bool.toNat_false]
      omega
    · simp only [isPush, Bool.toNat_false]
      omega
  | thief i =>
    simp only [next, thiefStep] at hs
    cases hpc : s.thief i with
    | idle | stealReturn r => simp [hpc] at hs
    | loadTop | loadBuffer t | getSlot t buf =>
      simp only [hpc, Option.some.injEq] at hs
      subst hs
      exact .of_thief rfl
    | loadBottom t | cas t x =>
      simp only [hpc] at hs
      split at hs <;>
      · obtain rfl := Option.some.inj hs
        exact .of_thief rfl

variable {capacity : Int} {tr : List (Label T Thief)}

/-- The owner's accesses are paid for by its calls and by the buffers. -/
theorem accesses_paid (hcap : 1 ≤ capacity) (hrun : (system T Thief capacity).Run tr s) :
    tr.countP isOwner + s.potential ≤
      5 * tr.countP isPush + 7 * tr.countP isPop - 4 * capacity := by
  have hstep : ∀ s l s', (system T Thief capacity).Reachable s → next s l = some s' →
      ((isOwner l).toNat : Int) + s'.potential ≤ s.potential + (callWorth s l : ℕ) :=
    fun s l s' ⟨tr, hr⟩ hs => (step_paid (inv_run hcap hr) hs).paid
  have hpaid := hrun.tally_le State.potential hstep
  have hworth : System.tally next callWorth (initial capacity : State T Thief) tr =
      5 * tr.countP isPush + 7 * tr.countP isPop := by
    rw [← hrun.tally_label, ← hrun.tally_label, ← System.tally_mul, ← System.tally_mul,
      ← System.tally_add]
    rfl
  have hfirst : (initial capacity : State T Thief).potential = -(4 * capacity) :=
    Int.zero_sub _
  rw [hrun.tally_label, hworth, hfirst] at hpaid
  omega

/-- What the owner has pushed, and the buffers it has for that. -/
structure Accounts (capacity : Int) (pushes : ℕ) (s : State T Thief) : Prop where
  pushed_le : s.pushed ≤ pushes
  allotted_le : s.allotted ≤ max capacity (2 * pushes)
  retired_eq : s.retired + capacity = s.cur.cap
  retired_lt : ∀ a ∈ s.old_buffers, a < s.fresh

theorem accounts_of_run (hcap : 1 ≤ capacity) (hrun : (system T Thief capacity).Run tr s) :
    Accounts capacity (tr.countP isPush) s := by
  refine hrun.history_invariant (P := fun tr s => Accounts capacity (tr.countP isPush) s) ?_ ?_
  · rintro s rfl
    refine ⟨le_rfl, ?_, ?_, by simp [initial]⟩
    · exact le_max_left _ _
    · simp [State.retired, State.cur, initial]
  · intro tr s l s' hr hacc hs
    obtain ⟨-, hpushed, hallot, hretired⟩ := step_paid (inv_run hcap hr) hs
    obtain ⟨hpushed₀, hallot₀, hretired₀, hlt⟩ := hacc
    have hcount : (tr ++ [l]).countP isPush = tr.countP isPush + (isPush l).toNat := by
      rw [List.countP_append]
      cases hl : isPush l <;> simp [hl]
    obtain ⟨hsum, hlt'⟩ := hretired hlt
    refine ⟨?_, ?_, ?_, hlt'⟩
    · rw [hcount]
      omega
    · rw [hcount]
      obtain hsame | hgrown := hallot
      · omega
      · omega
    · omega

omit [Inhabited T] [DecidableEq T] [DecidableEq Thief] in
/-- A call never owes less than nothing. -/
theorem left_nonneg (h : Inv s) : 0 ≤ s.owner.left := by
  have hown := h.owner_ok
  cases hpc : s.owner with
  | growGet v b t buf newBuf i =>
    simp only [OwnerOk, hpc] at hown
    have hindex := hown.index.2
    simp only [OwnerPC.left]
    omega
  | growPut v b t buf newBuf i x =>
    simp only [OwnerOk, hpc] at hown
    have hindex := hown.2.1
    simp only [OwnerPC.left]
    omega
  | _ => simp [OwnerPC.left]

omit [Inhabited T] [DecidableEq T] [DecidableEq Thief] in
theorem cap_le_allotted (h : Inv s) : s.cur.cap ≤ s.allotted := by
  have hpos := h.cur_cap_pos
  unfold State.allotted
  split <;> omega

/-- **Growth is paid for by the pushes.** Whatever the thieves do, the owner
    makes thirteen accesses for each `push` and seven for each `pop` at
    most; the buffer has at most two slots for each `push`, and the
    retired ones have fewer than it together. -/
theorem push_amortized (hcap : 1 ≤ capacity) (hrun : (system T Thief capacity).Run tr s) :
    tr.countP isOwner ≤ 13 * tr.countP isPush + 7 * tr.countP isPop ∧
    s.cur.cap ≤ max capacity (2 * tr.countP isPush) ∧
    (s.old_buffers.map fun a => (s.heap a).cap).sum + capacity = s.cur.cap := by
  have hi := inv_run hcap hrun
  have hpaid := accesses_paid hcap hrun
  have hleft := left_nonneg hi
  obtain ⟨-, hallot, hretired, -⟩ := accounts_of_run hcap hrun
  refine ⟨?_, le_trans (cap_le_allotted hi) hallot, hretired⟩
  unfold State.potential at hpaid
  omega

/-- The buffer of one slot is full when the second element comes. -/
def pushTwice : List (Label ℕ Unit) :=
  List.flatten
    [[.callPush 7], .replicate 5 .owner, [.retPush, .callPush 8], .replicate 9 .owner, [.retPush]]

theorem pushTwice_amortized :
    ∃ s, (system ℕ Unit 1).Run pushTwice s ∧ s.cur.cap = 2 ∧ pushTwice.countP isOwner = 14 ∧
      pushTwice.countP isOwner ≤ 13 * pushTwice.countP isPush + 7 * pushTwice.countP isPop ∧
      s.cur.cap ≤ max 1 (2 * pushTwice.countP isPush) ∧
      (s.old_buffers.map fun a => (s.heap a).cap).sum + 1 = s.cur.cap := by
  have hexec : (System.exec next (initial 1 : State ℕ Unit) pushTwice).map
      (fun s => s.cur.cap) = some 2 := by decide
  obtain ⟨s, hrun, hs⟩ := System.exists_run_of_exec hexec
  exact ⟨s, hrun, hs, by decide, push_amortized (by decide) hrun⟩

/-! ### The Thieves -/

/-- An access of thief `i`. -/
def isThief (i : Thief) : Label T Thief → Bool
  | .thief j => j = i
  | _ => false

def isSteal (i : Thief) : Label T Thief → Bool
  | .callSteal j => j = i
  | _ => false

/-- Thief `i` loses its compare-exchange. -/
def lost (i : Thief) (s : State T Thief) (l : Label T Thief) : ℕ :=
  match s.thief i with
  | .cas t _ => (isThief i l && s.top ≠ t).toNat
  | _ => 0

/-- Somebody else takes the element at `top_`. -/
def taken (i : Thief) (s : State T Thief) (l : Label T Thief) : ℕ :=
  if isThief i l then 0 else System.changes next State.top s l

/-- The accesses `steal` still makes. -/
def ThiefPC.left : ThiefPC T → ℕ
  | .idle | .stealReturn _ => 0
  | .loadTop => 5
  | .loadBottom _ => 4
  | .loadBuffer _ => 3
  | .getSlot _ _ => 2
  | .cas _ _ => 1

/-- The index the thief is after has been taken. -/
def ThiefPC.stale (top : Int) : ThiefPC T → ℕ
  | .loadBottom t | .loadBuffer t | .getSlot t _ | .cas t _ => if t = top then 0 else 1
  | .idle | .loadTop | .stealReturn _ => 0

omit [Inhabited T] [DecidableEq T] [DecidableEq Thief] in
theorem ThiefPC.stale_le (pc : ThiefPC T) (top top' : Int) :
    pc.stale top' ≤ pc.stale top + if top' = top then 0 else 1 := by
  by_cases htop : top' = top
  · simp [htop]
  · have hone : pc.stale top' ≤ 1 := by
      cases pc <;> simp only [stale] <;> (try split) <;> omega
    simp only [htop, if_false]
    omega

omit [DecidableEq T] [DecidableEq Thief] in
/-- The owner leaves the thieves where they are. -/
theorem ownerStep_thief (hs : ownerStep s = some s') : s'.thief = s.thief := by
  unfold ownerStep at hs
  cases hpc : s.owner <;> simp only [hpc, reduceCtorEq] at hs
  case pushLoadBuffer | growGet | popLoadTop | popGet | popCas =>
    split at hs <;>
    · obtain rfl := Option.some.inj hs
      rfl
  all_goals
    obtain rfl := Option.some.inj hs
    rfl

/-- What a step does to thief `i`: an access of its own, a call, a return,
    or nothing. -/
theorem thief_cases {l : Label T Thief} (i : Thief) (hs : next s l = some s') :
    (l = .thief i ∧ thiefStep s i = some s') ∨
    (isThief i l = false ∧ s'.thief i = s.thief i) ∨
    (isThief i l = false ∧ s'.top = s.top ∧
      ((isSteal i l = true ∧ s'.thief i = .loadTop) ∨ s'.thief i = .idle)) := by
  cases l with
  | callPush v | callPop | retPush | retPop r =>
    simp only [next, Option.ite_none_right_eq_some, Option.some.injEq] at hs
    obtain ⟨-, rfl⟩ := hs
    exact .inr (.inl ⟨rfl, rfl⟩)
  | owner => exact .inr (.inl ⟨rfl, congrFun (ownerStep_thief hs) i⟩)
  | callSteal j =>
    simp only [next, Option.ite_none_right_eq_some, Option.some.injEq] at hs
    obtain ⟨-, rfl⟩ := hs
    by_cases hij : i = j
    · subst hij
      exact .inr (.inr ⟨rfl, rfl, .inl ⟨by simp [isSteal], by simp [State.setThief]⟩⟩)
    · exact .inr (.inl ⟨rfl, by simp [State.setThief, hij]⟩)
  | retSteal j r =>
    simp only [next, Option.ite_none_right_eq_some, Option.some.injEq] at hs
    obtain ⟨-, rfl⟩ := hs
    by_cases hij : i = j
    · subst hij
      exact .inr (.inr ⟨rfl, rfl, .inr (by simp [State.setThief])⟩)
    · exact .inr (.inl ⟨rfl, by simp [State.setThief, hij]⟩)
  | thief j =>
    by_cases hij : i = j
    · subst hij
      exact .inl ⟨rfl, hs⟩
    · refine .inr (.inl ⟨by simp [isThief, Ne.symm hij], ?_⟩)
      simp only [next, thiefStep] at hs
      cases hpc : s.thief j with
      | idle | stealReturn r => simp [hpc] at hs
      | loadTop | loadBuffer t | getSlot t buf =>
        simp only [hpc, Option.some.injEq] at hs
        subst hs
        simp [State.setThief, hij]
      | loadBottom t | cas t x =>
        simp only [hpc] at hs
        split at hs <;>
        · obtain rfl := Option.some.inj hs
          simp [State.setThief, hij]

omit [Inhabited T] [DecidableEq T] in
/-- **An access of thief `i`**: nearer to its return, and its
    compare-exchange is lost only when what it knows is stale. -/
theorem thief_paid (hs : thiefStep s i = some s') :
    1 + (s'.thief i).left ≤ (s.thief i).left ∧
    lost i s (.thief i) + (s'.thief i).stale s'.top ≤ (s.thief i).stale s.top := by
  unfold thiefStep at hs
  cases hpc : s.thief i with
  | idle | stealReturn r => simp [hpc] at hs
  | loadTop =>
    simp only [hpc, Option.some.injEq] at hs
    subst hs
    simp [State.setThief, ThiefPC.left, ThiefPC.stale, lost, hpc]
  | loadBuffer t | getSlot t buf =>
    simp only [hpc, Option.some.injEq] at hs
    subst hs
    refine ⟨by simp [State.setThief, ThiefPC.left], ?_⟩
    simp only [lost, hpc, State.setThief, Function.update_self, ThiefPC.stale, Nat.zero_add]
    exact le_rfl
  | loadBottom t =>
    simp only [hpc] at hs
    split at hs
    · obtain rfl := Option.some.inj hs
      refine ⟨by simp [State.setThief, ThiefPC.left], ?_⟩
      simp only [lost, hpc, State.setThief, Function.update_self, ThiefPC.stale, Nat.zero_add]
      exact le_rfl
    · obtain rfl := Option.some.inj hs
      refine ⟨by simp [State.setThief, ThiefPC.left], ?_⟩
      simp [State.setThief, ThiefPC.stale, lost, hpc]
  | cas t x =>
    simp only [hpc] at hs
    split at hs
    · next htop =>
      obtain rfl := Option.some.inj hs
      simp [State.setThief, ThiefPC.left, ThiefPC.stale, lost, hpc, htop]
    · next htop =>
      obtain rfl := Option.some.inj hs
      simp [State.setThief, ThiefPC.left, ThiefPC.stale, lost, hpc, isThief, htop, Ne.symm htop]

omit [Inhabited T] [DecidableEq T] in
/-- A step that is none of thief `i`. -/
theorem lost_of_not_thief {l : Label T Thief} (hl : isThief i l = false) : lost i s l = 0 := by
  unfold lost
  cases s.thief i <;> simp [hl]

/-- **Thieves are held up by takers only.** A `steal` makes five accesses
    at most, and thief `i` has lost no more compare-exchanges than elements
    were taken by others. -/
theorem steals_lost_le (hrun : (system T Thief capacity).Run tr s) (i : Thief) :
    tr.countP (isThief i) ≤ 5 * tr.countP (isSteal i) ∧
    System.tally next (lost i) (initial capacity : State T Thief) tr ≤
      System.tally next (taken i) (initial capacity : State T Thief) tr := by
  constructor
  · have hstep : ∀ s l s', (system T Thief capacity).Reachable s → next s l = some s' →
        ((isThief i l).toNat : Int) + (s'.thief i).left ≤
          (s.thief i).left + (5 * (isSteal i l).toNat : ℕ) := by
      intro s l s' _ hs
      obtain ⟨rfl, hown⟩ | ⟨hl, hsame⟩ | ⟨hl, -, ⟨hcall, hpc⟩ | hpc⟩ := thief_cases i hs
      · have hleft := (thief_paid hown).1
        simp only [isThief, decide_true, Bool.toNat_true]
        omega
      · rw [hl, hsame, Bool.toNat_false]
        omega
      · rw [hl, hcall, hpc, Bool.toNat_false]
        simp only [ThiefPC.left, Bool.toNat_true]
        omega
      · rw [hl, hpc, Bool.toNat_false]
        simp only [ThiefPC.left]
        omega
    have hpaid := hrun.tally_le (fun s => ((s.thief i).left : Int)) hstep
    rw [System.tally_mul, hrun.tally_label, hrun.tally_label] at hpaid
    have hfirst : ((initial capacity : State T Thief).thief i).left = 0 := rfl
    omega
  · have hstep : ∀ s l s', (system T Thief capacity).Reachable s → next s l = some s' →
        (lost i s l : Int) + (s'.thief i).stale s'.top ≤
          (s.thief i).stale s.top + (taken i s l : ℕ) := by
      intro s l s' _ hs
      have htaken : isThief i l = false →
          taken i s l = if s'.top = s.top then 0 else 1 := by
        intro hl
        simp only [taken, hl, Bool.false_eq_true, if_false]
        exact System.changes_eq State.top hs
      obtain ⟨rfl, hown⟩ | ⟨hl, hsame⟩ | ⟨hl, htop, hpc⟩ := thief_cases i hs
      · have hlost := (thief_paid hown).2
        omega
      · have hstale := (s.thief i).stale_le s.top s'.top
        rw [lost_of_not_thief hl, htaken hl, hsame]
        omega
      · have hstale : (s'.thief i).stale s'.top = 0 := by
          obtain ⟨-, hpc⟩ | hpc := hpc <;> rw [hpc] <;> rfl
        rw [lost_of_not_thief hl, hstale]
        omega
    have hpaid := hrun.tally_le (fun s => ((s.thief i).stale s.top : Int)) hstep
    have hfirst : ((initial capacity : State T Thief).thief i).stale 0 = 0 := rfl
    have hzero : (initial capacity : State T Thief).top = 0 := rfl
    simp only [hzero, hfirst] at hpaid
    omega

/-- The owner takes the element a thief is after. -/
def popFirst : List (Label ℕ Unit) :=
  List.flatten
    [[.callPush 7], .replicate 5 .owner, [.retPush, .callSteal ()], .replicate 4 (.thief ()),
      [.callPop], .replicate 6 .owner, [.thief ()]]

theorem popFirst_lost :
    ∃ s, (system ℕ Unit 1).Run popFirst s ∧
      System.tally next (lost ()) (initial 1 : State ℕ Unit) popFirst = 1 ∧
      popFirst.countP (isThief ()) ≤ 5 * popFirst.countP (isSteal ()) ∧
      System.tally next (lost ()) (initial 1 : State ℕ Unit) popFirst ≤
        System.tally next (taken ()) (initial 1 : State ℕ Unit) popFirst := by
  have hexec : (System.exec next (initial 1 : State ℕ Unit) popFirst).isSome := by decide
  obtain ⟨s, hs⟩ := Option.isSome_iff_exists.mp hexec
  have hrun : (system ℕ Unit 1).Run popFirst s := System.run_of_exec hs
  exact ⟨s, hrun, by decide, steals_lost_le hrun ()⟩

end Forge.WorkStealingDeque
