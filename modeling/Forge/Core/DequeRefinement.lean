import Forge.Core.DequeInvariant
import Forge.Framework.AtomicObject
import Mathlib.Data.Multiset.AddSub
import Mathlib.Tactic.DeriveFintype

/-! # The Work-Stealing Deque — Refinement

  The deque refines an atomic double-ended queue: its calls and returns
  are those of an object on which `push` appends at the bottom, `pop`
  removes the bottom-most element or finds the queue empty, and `steal`
  removes the top-most element or changes nothing, each in one
  indivisible step between its call and its return.

  Those steps are: the store of `bottom_` in `push`; in `pop` the load of
  `top_`, or the compare-exchange when one element is left; in `steal`
  the compare-exchange, or the load of `bottom_` that finds nothing.
-/

open LTS

namespace Forge.WorkStealingDeque

variable {T Thief : Type*}

/-! ### The atomic deque -/

/-- The threads: one owner and the thieves. -/
inductive Tid (Thief : Type*) where
  | owner
  | thief (i : Thief)
  deriving DecidableEq, Fintype

/-- The operations of a deque. -/
inductive Op (T : Type*) where
  | push (value : T)
  | pop
  | steal

/-- Their results. -/
inductive Res (T : Type*) where
  | pushed
  | popped (result : Option T)
  | stolen (result : Option T)

/-- A double-ended queue, top first. A `steal` may fail at any time and
    then changes nothing; a `pop` fails only on the empty queue. -/
def dequeSpec (T : Type*) : SequentialSpec (List T) (Op T) (Res T) where
  start := []
  apply := fun q op res q' =>
    match op, res with
    | .push v, .pushed => q' = q ++ [v]
    | .pop, .popped (some v) => q = q' ++ [v]
    | .pop, .popped none => q = [] ∧ q' = []
    | .steal, .stolen (some v) => q = v :: q'
    | .steal, .stolen none => q' = q
    | _, _ => False

/-- The atomic deque shared by the owner and the thieves. -/
def atomicDeque (T Thief : Type*) [DecidableEq Thief] :
    System (Atomic.State (List T) (Tid Thief) (Op T) (Res T))
      (Atomic.Label (Tid Thief) (Op T) (Res T)) :=
  Atomic.system (dequeSpec T)

/-- The client's view of a step of the implementation. -/
def event : Label T Thief → Option (Atomic.Event (Tid Thief) (Op T) (Res T))
  | .callPush v => some (.call .owner (.push v))
  | .retPush => some (.ret .owner .pushed)
  | .callPop => some (.call .owner .pop)
  | .retPop r => some (.ret .owner (.popped r))
  | .callSteal i => some (.call (.thief i) .steal)
  | .retSteal i r => some (.ret (.thief i) (.stolen r))
  | .owner | .thief _ => none

/-! ### Windows of an indexed store -/

/-- The values at the indices `lo ≤ i < hi`, in order. -/
def window (g : Int → T) (lo hi : Int) : List T :=
  (List.range (hi - lo).toNat).map fun k : ℕ => g (lo + (k : Int))

theorem window_congr {g g' : Int → T} {lo hi : Int}
    (h : ∀ i, lo ≤ i → i < hi → g' i = g i) : window g' lo hi = window g lo hi := by
  unfold window
  refine List.map_congr_left fun k hk => ?_
  have hk' := List.mem_range.mp hk
  exact h _ (by omega) (by omega)

theorem window_eq_nil {g : Int → T} {lo hi : Int} (h : hi ≤ lo) : window g lo hi = [] := by
  have hlen : (hi - lo).toNat = 0 := by omega
  simp [window, hlen]

/-- Splitting off the last index. -/
theorem window_snoc {g : Int → T} {lo hi : Int} (h : lo ≤ hi) :
    window g lo (hi + 1) = window g lo hi ++ [g hi] := by
  have hlen : (hi + 1 - lo).toNat = (hi - lo).toNat + 1 := by omega
  have hlast : lo + ((hi - lo).toNat : Int) = hi := by omega
  unfold window
  rw [hlen, List.range_succ, List.map_append, List.map_cons, hlast, List.map_nil]

/-- Splitting off the first index. -/
theorem window_cons {g : Int → T} {lo hi : Int} (h : lo < hi) :
    window g lo hi = g lo :: window g (lo + 1) hi := by
  have hlen : (hi - lo).toNat = (hi - (lo + 1)).toNat + 1 := by omega
  unfold window
  rw [hlen, List.range_succ_eq_map, List.map_cons, List.map_map]
  congr 1
  · simp
  · refine List.map_congr_left fun k _ => ?_
    have hk : lo + ((k.succ : ℕ) : Int) = lo + 1 + (k : Int) := by omega
    simp only [Function.comp, hk]

/-! ### The refinement mapping -/

/-- The elements of the deque, top first. -/
def State.contents (s : State T Thief) : List T := window s.cur.get s.top s.limit

/-- Where the owner's operation is. -/
def ownerStatus (s : State T Thief) : Atomic.Status (Op T) (Res T) :=
  match s.owner with
  | .idle => .idle
  | .pushLoadBottom v | .pushLoadTop v _ | .pushLoadBuffer v _ _ | .growGet v _ _ _ _ _
  | .growPut v _ _ _ _ _ _ | .publish v _ _ _ _ | .pushPut v _ _
  | .pushStoreBottom v _ => .pending (.push v)
  | .pushReturn => .done .pushed
  | .popLoadBottom | .popLoadBuffer _ | .popStoreBottom _ _ | .popLoadTop _ _
  | .popCas _ _ => .pending .pop
  | .popGet b buf t =>
      if t = b then .pending .pop else .done (.popped (some ((s.heap buf).get b)))
  | .popRestore _ r | .popReturn r => .done (.popped r)
  | .popEmpty _ => .done (.popped none)

/-- Where a thief's operation is. -/
def thiefStatus : ThiefPC T → Atomic.Status (Op T) (Res T)
  | .idle => .idle
  | .loadTop | .loadBottom _ | .loadBuffer _ | .getSlot _ _ | .cas _ _ => .pending .steal
  | .stealReturn r => .done (.stolen r)

/-- The abstract state of the deque. -/
def abstraction (s : State T Thief) : Atomic.State (List T) (Tid Thief) (Op T) (Res T) where
  obj := s.contents
  status := fun
    | .owner => ownerStatus s
    | .thief i => thiefStatus (s.thief i)

/-! ### Every step is a stutter or one abstract step -/

/-- The owner's status changes alone. -/
theorem abstraction_owner {s s' : State T Thief} {x : Atomic.Status (Op T) (Res T)}
    [DecidableEq Thief] (hobj : s'.contents = s.contents) (hthief : s'.thief = s.thief)
    (hx : ownerStatus s' = x) :
    abstraction s' = { abstraction s with
      status := Function.update (abstraction s).status .owner x } := by
  unfold abstraction
  congr 1
  funext p
  cases p with
  | owner => simp [hx]
  | thief i => simp [hthief]

/-- An owner step that keeps the elements and the owner's status. -/
theorem abstraction_stutter {s s' : State T Thief} (hobj : s'.contents = s.contents)
    (hthief : s'.thief = s.thief) (howner : ownerStatus s' = ownerStatus s) :
    abstraction s' = abstraction s := by
  unfold abstraction
  congr 1
  · funext p
    cases p with
    | owner => exact howner
    | thief i => simp [hthief]

/-- The status of thief `i` alone changes. -/
theorem abstraction_setThief [DecidableEq Thief] (s : State T Thief) (i : Thief)
    (pc : ThiefPC T) :
    abstraction (s.setThief i pc) = { abstraction s with
      status := Function.update (abstraction s).status (.thief i) (thiefStatus pc) } := by
  unfold abstraction
  congr 1
  funext p
  cases p with
  | owner => simp [ownerStatus, State.setThief]
  | thief j =>
    by_cases hj : j = i
    · subst hj
      simp [State.setThief]
    · simp [State.setThief, hj]

theorem contents_congr {s s' : State T Thief} (htop : s'.top = s.top)
    (hlimit : s'.limit = s.limit)
    (hcur : ∀ i, s.top ≤ i → i < s.limit → s'.cur.get i = s.cur.get i) :
    s'.contents = s.contents := by
  unfold State.contents
  rw [htop, hlimit]
  exact window_congr hcur

/-- The owner's operation takes effect. -/
theorem lin_owner [DecidableEq Thief] {s s' : State T Thief} (op : Op T) (res : Res T)
    (hpend : ownerStatus s = .pending op) (hdone : ownerStatus s' = .done res)
    (happ : (dequeSpec T).apply s.contents op res s'.contents)
    (hthief : s'.thief = s.thief) :
    (atomicDeque T Thief).step (abstraction s) (.lin .owner) (abstraction s') := by
  refine ⟨op, res, hpend, happ, ?_⟩
  funext p
  cases p with
  | owner => simp [abstraction, hdone]
  | thief i => simp [abstraction, hthief]

/-- The owner moves on and its operation does not take effect. -/
theorem stutter_moveOwner {s : State T Thief} {pc : OwnerPC T}
    (hlimit : ({ s with owner := pc } : State T Thief).limit = s.limit)
    (hstatus : ownerStatus ({ s with owner := pc } : State T Thief) = ownerStatus s) :
    abstraction ({ s with owner := pc } : State T Thief) = abstraction s :=
  abstraction_stutter (contents_congr rfl hlimit fun _ _ _ => rfl) rfl hstatus

/-- The owner's `pop` takes effect on the empty deque. -/
theorem lin_popNone [DecidableEq Thief] {s : State T Thief} {pc : OwnerPC T}
    (hempty : s.limit ≤ s.top) (hpend : ownerStatus s = .pending .pop)
    (hlimit : ({ s with owner := pc } : State T Thief).limit = s.limit)
    (hdone : ownerStatus ({ s with owner := pc } : State T Thief) = .done (.popped none)) :
    (atomicDeque T Thief).step (abstraction s) (.lin .owner)
      (abstraction ({ s with owner := pc } : State T Thief)) := by
  have hnil : s.contents = [] := window_eq_nil hempty
  refine lin_owner .pop (.popped none) hpend hdone ⟨hnil, ?_⟩ rfl
  rw [← hnil]
  exact contents_congr rfl hlimit fun _ _ _ => rfl

section owner

variable [Inhabited T] {s s' : State T Thief}

/-- The store into slot `bottom_` overwrites no element. -/
theorem pushPut_stutters (h : Inv s) {v : T} {b : Int} {buf : ℕ}
    (hpc : s.owner = .pushPut v b buf) (hs : ownerStep s = some s') :
    abstraction s' = abstraction s := by
  have hown := h.owner_ok
  have h0 := h.top_nonneg
  simp only [ownerStep, hpc, Option.some.injEq] at hs
  subst hs
  simp only [OwnerOk, hpc] at hown
  obtain ⟨rfl, rfl, hroom⟩ := hown
  refine abstraction_stutter (contents_congr rfl ?_ fun j hj hlt => ?_) rfl ?_
  · simp [State.limit, hpc]
  · simp only [State.limit, hpc] at hlt
    have hcap : s.bottom - s.top < (s.heap s.buffer).cap := hroom
    have hget : ((s.heap s.buffer).put s.bottom v).get j = (s.heap s.buffer).get j :=
      CircularBuffer.get_put_of_ne _ (by omega) (by omega) (by omega) (by omega) (by omega)
    simpa [State.cur] using hget
  · simp [ownerStatus, hpc]

variable [DecidableEq Thief]

/-- The load of `top_` decides a `pop`, unless one element is left. -/
theorem popLoadTop_refines (h : Inv s) {b : Int} {buf : ℕ} (hpc : s.owner = .popLoadTop b buf)
    (hs : ownerStep s = some s') :
    abstraction s' = abstraction s ∨
      (atomicDeque T Thief).step (abstraction s) (.lin .owner) (abstraction s') := by
  have hown := h.owner_ok
  simp only [OwnerOk, hpc] at hown
  obtain ⟨rfl, rfl⟩ := hown
  simp only [ownerStep, hpc] at hs
  split at hs
  · next hle =>
    cases hs
    by_cases heq : s.top = s.bottom
    · -- one element: undecided until the compare-exchange
      left
      refine stutter_moveOwner ?_ ?_
      · simp [State.limit, hpc, heq]
      · simp [ownerStatus, hpc, heq]
    · right
      refine lin_owner .pop (.popped (some (s.cur.get s.bottom))) ?_ ?_ ?_ rfl
      · simp [ownerStatus, hpc]
      · simp [ownerStatus, heq, State.cur]
      · show s.contents = State.contents _ ++ [s.cur.get s.bottom]
        simp only [State.contents, State.limit, hpc, heq, if_false]
        exact window_snoc hle
  · next hgt =>
    cases hs
    right
    refine lin_popNone ?_ ?_ ?_ ?_
    · simp only [State.limit, hpc]
      omega
    · simp [ownerStatus, hpc]
    · simp [State.limit, hpc]
    · simp [ownerStatus]

/-- The compare-exchange decides a `pop` of the last element. -/
theorem popCas_refines (h : Inv s) {t : Int} {x : T} (hpc : s.owner = .popCas t x)
    (hs : ownerStep s = some s') :
    (atomicDeque T Thief).step (abstraction s) (.lin .owner) (abstraction s') := by
  have hown := h.owner_ok
  simp only [OwnerOk, hpc] at hown
  obtain ⟨rfl, hle, rfl⟩ := hown
  simp only [ownerStep, hpc] at hs
  split at hs
  · next heq =>
    cases hs
    refine lin_owner .pop (.popped (some (s.cur.get s.bottom))) ?_ ?_ ?_ rfl
    · simp [ownerStatus, hpc]
    · simp [ownerStatus]
    · -- the only element
      show s.contents = window s.cur.get (s.bottom + 1) (s.bottom + 1)
        ++ [s.cur.get s.bottom]
      simp only [State.contents, State.limit, hpc, heq]
      rw [window_cons (by omega), window_eq_nil (le_refl _)]
      rfl
  · next hne =>
    cases hs
    -- `top_` has moved past the last element: a thief has it
    refine lin_popNone ?_ ?_ ?_ ?_
    · simp only [State.limit, hpc]
      omega
    · simp [ownerStatus, hpc]
    · simp [State.limit, hpc]
    · simp [ownerStatus]

/-- Every atomic access of the owner is a stutter or the effect of its
    operation. -/
theorem ownerStep_refines (h : Inv s) (hs : ownerStep s = some s') :
    abstraction s' = abstraction s ∨
      (atomicDeque T Thief).step (abstraction s) (.lin .owner) (abstraction s') := by
  have hown := h.owner_ok
  cases hpc : s.owner with
  | idle | pushReturn | popReturn r => simp [ownerStep, hpc] at hs
  | pushLoadBottom v | pushLoadTop v b | popLoadBottom | popLoadBuffer b =>
    simp only [ownerStep, hpc, Option.some.injEq] at hs
    subst hs
    left
    refine stutter_moveOwner ?_ ?_
    · simp [State.limit, hpc]
    · simp [ownerStatus, hpc]
  | pushLoadBuffer v b t =>
    simp only [ownerStep, hpc] at hs
    left
    split at hs
    · cases hs
      -- the new buffer is at a fresh address
      have hbuf : s.buffer ≠ s.fresh := by
        have := h.buffer_lt
        have := h.published_le
        omega
      refine abstraction_stutter (contents_congr rfl ?_ fun i _ _ => ?_) rfl ?_
      · simp [State.limit, hpc]
      · simp [State.cur, hbuf]
      · simp [ownerStatus, hpc]
    · cases hs
      refine stutter_moveOwner ?_ ?_
      · simp [State.limit, hpc]
      · simp [ownerStatus, hpc]
  | growGet v b t buf newBuf i =>
    simp only [ownerStep, hpc] at hs
    left
    split at hs <;> cases hs <;>
      exact stutter_moveOwner (by simp [State.limit, hpc]) (by simp [ownerStatus, hpc])
  | growPut v b t buf newBuf i x =>
    simp only [ownerStep, hpc, Option.some.injEq] at hs
    subst hs
    left
    -- the buffer being filled is not the current one
    have hbuf : s.buffer ≠ newBuf := by
      have hlt := h.buffer_lt
      simp only [State.published, hpc] at hlt
      omega
    refine abstraction_stutter (contents_congr rfl ?_ fun j _ _ => ?_) rfl ?_
    · simp [State.limit, hpc]
    · simp [State.cur, hbuf]
    · simp [ownerStatus, hpc]
  | publish v b t buf newBuf =>
    simp only [ownerStep, hpc, Option.some.injEq] at hs
    subst hs
    left
    simp only [OwnerOk, hpc] at hown
    refine abstraction_stutter (contents_congr rfl ?_ fun j hj hlt => ?_) rfl ?_
    · simp [State.limit, hpc]
    · -- every element was copied: the copy started at a lower bound of `top_`
      have hlow := hown.top_le
      have hbot := hown.bottom_eq
      simp only [State.limit, hpc] at hlt
      exact hown.copied j (by omega) (by omega)
    · simp [ownerStatus, hpc]
  | pushPut v b buf => exact .inl (pushPut_stutters h hpc hs)
  | pushStoreBottom v b =>
    simp only [ownerStep, hpc, Option.some.injEq] at hs
    subst hs
    right
    have htop := h.top_le
    simp only [OwnerOk, hpc] at hown
    simp only [State.limit, hpc] at htop
    obtain ⟨rfl, rfl, -⟩ := hown
    refine lin_owner (.push (s.cur.get s.bottom)) .pushed ?_ rfl ?_ rfl
    · simp [ownerStatus, hpc]
    · show window s.cur.get s.top (s.bottom + 1) = s.contents ++ [s.cur.get s.bottom]
      rw [window_snoc htop]
      simp [State.contents, State.limit, hpc]
  | popStoreBottom b buf =>
    simp only [ownerStep, hpc, Option.some.injEq] at hs
    subst hs
    left
    simp only [OwnerOk, hpc] at hown
    -- `bottom_` is lowered, the elements stay
    refine abstraction_stutter (contents_congr rfl ?_ fun _ _ _ => rfl) rfl ?_
    · simp only [State.limit, hpc]
      omega
    · simp [ownerStatus, hpc]
  | popLoadTop b buf => exact popLoadTop_refines h hpc hs
  | popGet b buf t =>
    simp only [ownerStep, hpc] at hs
    left
    split at hs
    · next heq =>
      cases hs
      refine stutter_moveOwner ?_ ?_
      · simp [State.limit, hpc, heq]
      · simp [ownerStatus, hpc, heq]
    · next hne =>
      cases hs
      refine stutter_moveOwner ?_ ?_
      · simp [State.limit, hpc, hne]
      · simp [ownerStatus, hpc, hne]
  | popCas t x => exact .inr (popCas_refines h hpc hs)
  | popRestore t r | popEmpty t =>
    simp only [ownerStep, hpc, Option.some.injEq] at hs
    subst hs
    left
    simp only [OwnerOk, hpc] at hown
    refine abstraction_stutter (contents_congr rfl ?_ fun _ _ _ => rfl) rfl ?_
    · simp [State.limit, hpc, hown.1]
    · simp [ownerStatus, hpc]

end owner

/-- Every atomic access of a thief is a stutter or the effect of its
    `steal`. -/
theorem thiefStep_refines [DecidableEq Thief] {s s' : State T Thief} {i : Thief}
    (h : Inv s) (hs : thiefStep s i = some s') :
    abstraction s' = abstraction s ∨
      (atomicDeque T Thief).step (abstraction s) (.lin (.thief i)) (abstraction s') := by
  have hok := h.thief_ok i
  -- a `steal` that goes on keeps the status `pending`
  have hstutter : ∀ pc, thiefStatus pc = thiefStatus (s.thief i) →
      abstraction (s.setThief i pc) = abstraction s := by
    intro pc hst
    rw [abstraction_setThief, hst]
    have hself : Function.update (abstraction s).status (.thief i) (thiefStatus (s.thief i))
        = (abstraction s).status := Function.update_eq_self (Tid.thief i) _
    rw [hself]
  -- a `steal` that gives up takes effect without one
  have hfail : thiefStatus (s.thief i) = .pending .steal →
      (atomicDeque T Thief).step (abstraction s) (.lin (.thief i))
        (abstraction (s.setThief i (.stealReturn none))) := by
    intro hst
    rw [abstraction_setThief]
    exact ⟨.steal, .stolen none, hst, rfl, rfl⟩
  cases hpc : s.thief i with
  | idle | stealReturn r => simp [thiefStep, hpc] at hs
  | loadTop | loadBuffer t | getSlot t buf =>
    simp only [thiefStep, hpc, Option.some.injEq] at hs
    subst hs
    exact .inl (hstutter _ (by simp [hpc, thiefStatus]))
  | loadBottom t =>
    simp only [thiefStep, hpc] at hs
    split at hs <;> cases hs
    · exact .inl (hstutter _ (by simp [hpc, thiefStatus]))
    · exact .inr (hfail (by simp [hpc, thiefStatus]))
  | cas t x =>
    rw [hpc] at hok
    simp only [thiefStep, hpc] at hs
    split at hs
    · next heq =>
      cases hs
      subst heq
      obtain ⟨hlt, rfl⟩ := hok.2 rfl
      right
      refine ⟨.steal, .stolen (some (s.cur.get s.top)), ?_, ?_, ?_⟩
      · simp [abstraction, hpc, thiefStatus]
      · show s.contents = s.cur.get s.top :: window s.cur.get (s.top + 1) s.limit
        exact window_cons hlt
      · rw [abstraction_setThief]
        rfl
    · cases hs
      exact .inr (hfail (by simp [hpc, thiefStatus]))

/-- A call or a return of the owner is the same call or return of the
    atomic deque. -/
theorem callReturn_refines [DecidableEq Thief] {s : State T Thief} {pc : OwnerPC T}
    (hfrom : s.limit = s.bottom) (hto : ({ s with owner := pc } : State T Thief).limit = s.bottom) :
    abstraction ({ s with owner := pc } : State T Thief) = { abstraction s with
      status := Function.update (abstraction s).status .owner
        (ownerStatus ({ s with owner := pc } : State T Thief)) } :=
  abstraction_owner (contents_congr rfl (by rw [hfrom, hto]) fun _ _ _ => rfl) rfl rfl

section refinement

variable [Inhabited T] [DecidableEq T] [DecidableEq Thief]

/-- Every step is a stutter or one step of the atomic deque with the same
    event. -/
theorem step_refines {s s' : State T Thief} {l : Label T Thief} (h : Inv s)
    (hs : next s l = some s') :
    (abstraction s' = abstraction s ∧ event l = none) ∨
      ∃ k, (atomicDeque T Thief).step (abstraction s) k (abstraction s') ∧
        k.event = event l := by
  cases l with
  | callPush v =>
    simp only [next, Option.ite_none_right_eq_some, Option.some.injEq] at hs
    obtain ⟨hpc, rfl⟩ := hs
    refine .inr ⟨.call .owner (.push v), ⟨?_, ?_⟩, rfl⟩
    · simp [abstraction, ownerStatus, hpc]
    · exact callReturn_refines (by simp [State.limit, hpc]) rfl
  | retPush =>
    simp only [next, Option.ite_none_right_eq_some, Option.some.injEq] at hs
    obtain ⟨hpc, rfl⟩ := hs
    refine .inr ⟨.ret .owner .pushed, ⟨?_, ?_⟩, rfl⟩
    · simp [abstraction, ownerStatus, hpc]
    · exact callReturn_refines (by simp [State.limit, hpc]) rfl
  | callPop =>
    simp only [next, Option.ite_none_right_eq_some, Option.some.injEq] at hs
    obtain ⟨hpc, rfl⟩ := hs
    refine .inr ⟨.call .owner .pop, ⟨?_, ?_⟩, rfl⟩
    · simp [abstraction, ownerStatus, hpc]
    · exact callReturn_refines (by simp [State.limit, hpc]) rfl
  | retPop r =>
    simp only [next, Option.ite_none_right_eq_some, Option.some.injEq] at hs
    obtain ⟨hpc, rfl⟩ := hs
    refine .inr ⟨.ret .owner (.popped r), ⟨?_, ?_⟩, rfl⟩
    · simp [abstraction, ownerStatus, hpc]
    · exact callReturn_refines (by simp [State.limit, hpc]) rfl
  | callSteal i =>
    simp only [next, Option.ite_none_right_eq_some, Option.some.injEq] at hs
    obtain ⟨hpc, rfl⟩ := hs
    refine .inr ⟨.call (.thief i) .steal, ⟨?_, abstraction_setThief s i _⟩, rfl⟩
    simp [abstraction, thiefStatus, hpc]
  | retSteal i r =>
    simp only [next, Option.ite_none_right_eq_some, Option.some.injEq] at hs
    obtain ⟨hpc, rfl⟩ := hs
    refine .inr ⟨.ret (.thief i) (.stolen r), ⟨?_, abstraction_setThief s i _⟩, rfl⟩
    simp [abstraction, thiefStatus, hpc]
  | owner =>
    rcases ownerStep_refines h hs with hstutter | hlin
    · exact .inl ⟨hstutter, rfl⟩
    · exact .inr ⟨_, hlin, rfl⟩
  | thief i =>
    rcases thiefStep_refines h hs with hstutter | hlin
    · exact .inl ⟨hstutter, rfl⟩
    · exact .inr ⟨_, hlin, rfl⟩

/-- The deque refines the atomic deque. -/
def refinement {capacity : Int} (hcap : 1 ≤ capacity) :
    RefinementMap (system T Thief capacity) (atomicDeque T Thief) event Atomic.Label.event where
  map := abstraction
  inv := Inv
  inv_init := by
    rintro s rfl
    exact inv_initial hcap
  inv_step := fun _ _ _ h hs => inv_step h hs
  map_init := by
    rintro s rfl
    refine ⟨window_eq_nil (le_refl 0), fun p => ?_⟩
    cases p <;> rfl
  map_step := fun _ _ _ h hs => step_refines h hs

end refinement

/-! ### Nothing is lost or duplicated -/

/-- The element a `push` puts in. -/
def Op.input : Op T → Multiset T
  | .push v => {v}
  | .pop | .steal => 0

/-- The element a `pop` or a `steal` takes out. -/
def Res.output : Res T → Multiset T
  | .popped (some v) | .stolen (some v) => {v}
  | .pushed | .popped none | .stolen none => 0

/-- Every sequential operation only moves elements. -/
theorem dequeSpec_balance {q q' : List T} {op : Op T} {res : Res T}
    (h : (dequeSpec T).apply q op res q') :
    (q : Multiset T) + op.input = (q' : Multiset T) + res.output := by
  cases op with
  | push v =>
    cases res with
    | pushed =>
      have hq : q' = q ++ [v] := h
      simp [hq, Op.input, Res.output, ← Multiset.coe_add]
    | popped r => exact h.elim
    | stolen r => exact h.elim
  | pop =>
    rcases res with _ | (_ | v) | r
    · exact h.elim
    · obtain ⟨rfl, rfl⟩ : q = [] ∧ q' = [] := h
      simp [Op.input, Res.output]
    · have hq : q = q' ++ [v] := h
      simp [hq, Op.input, Res.output, ← Multiset.coe_add]
    · exact h.elim
  | steal =>
    rcases res with _ | r | (_ | v)
    · exact h.elim
    · exact h.elim
    · have hq : q' = q := h
      simp [hq, Op.input, Res.output]
    · have hq : q = v :: q' := h
      rw [hq, ← Multiset.cons_coe, ← Multiset.singleton_add, add_comm ({v} : Multiset T)]
      simp [Op.input, Res.output]

/-- **The deque is linearizable and loses nothing.** Every interleaving
    of the owner's `push` and `pop` calls with the thieves' `steal` calls
    shows the client a history of the atomic deque; and in it the elements
    the pushes put in are, each as often, those the pops and steals have
    returned, those in the hands of running operations and those still in
    the deque. -/
theorem deque_refines_atomicDeque [Inhabited T] [DecidableEq T] [DecidableEq Thief]
    [Fintype Thief] {capacity : Int} (hcap : 1 ≤ capacity)
    {tr : List (Label T Thief)} {s : State T Thief}
    (hrun : (system T Thief capacity).Run tr s) :
    (∃ tr', (atomicDeque T Thief).Run tr' (abstraction s) ∧
      observe Atomic.Label.event tr' = observe event tr) ∧
    Atomic.putIn Op.input (observe event tr)
      = Atomic.takenOut Res.output (observe event tr)
        + Atomic.inHand Op.input Res.output (abstraction s).status
        + (s.contents : Multiset T) := by
  obtain ⟨tr', hrun', hobs⟩ := (refinement hcap).run hrun
  refine ⟨⟨tr', hrun', hobs⟩, ?_⟩
  rw [← hobs]
  exact Atomic.conservation (fun q : List T => (q : Multiset T)) rfl
    (fun _ _ _ _ h => dequeSpec_balance h) hrun'

/-- One thief and the owner race for the last element of a deque of
    capacity one, and the thief wins. -/
def lastElementRace : List (Label ℕ Unit) :=
  [.callPush 7, .owner, .owner, .owner, .owner, .owner, .retPush,
   .callSteal (), .thief (), .thief (), .thief (), .thief (),
   .callPop, .owner, .owner, .owner, .owner, .owner,
   .thief (), .owner, .owner, .retPop none, .retSteal () (some 7)]

theorem lastElementRace_refines :
    ∃ s, (system ℕ Unit 1).Run lastElementRace s ∧
      (∃ tr', (atomicDeque ℕ Unit).Run tr' (abstraction s) ∧
        observe Atomic.Label.event tr' = observe event lastElementRace) ∧
      Atomic.putIn Op.input (observe event lastElementRace)
        = Atomic.takenOut Res.output (observe event lastElementRace)
          + Atomic.inHand Op.input Res.output (abstraction s).status
          + (s.contents : Multiset ℕ) := by
  have hexec : (System.exec next (initial 1 : State ℕ Unit) lastElementRace).isSome := by
    decide
  obtain ⟨s, hs⟩ := Option.isSome_iff_exists.mp hexec
  have hrun : (system ℕ Unit 1).Run lastElementRace s := System.run_of_exec hs
  exact ⟨s, hrun, deque_refines_atomicDeque (by decide) hrun⟩

end Forge.WorkStealingDeque
