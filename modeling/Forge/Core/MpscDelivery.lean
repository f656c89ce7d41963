import Forge.Core.MpscInvariant

/-! # The Multi-Producer Single-Consumer Queue — Delivery

  The consequences of the chain invariant a client of the queue relies
  on: values come out in the order of the `head_` exchanges, each node at
  most once; an empty answer means that the queue was empty or that its
  oldest push had exchanged and not linked; and no producer ever writes
  to a deleted node.
-/

open LTS

namespace Forge.MpscQueue

variable {T Producer : Type*}

/-- The oldest push that has not been delivered has exchanged `head_` but
    not linked its node. -/
def OldestUnlinked (s : State T Producer) : Prop :=
  ∃ p prev node v, s.exchanged[s.popped.length]? = some (node, v) ∧
    s.producer p = .link prev node

/-- With empty hands, what is left of the history is the chain. -/
theorem ChainInv.rest_eq {s : State T Producer} {rest : List (ℕ × T)} (h : ChainInv s rest)
    (hhand : s.inHand = []) : rest = s.exchanged.drop s.popped.length := by
  rw [h.history, hhand, List.append_nil, List.drop_left]

/-- A sentinel without successor: nothing is left, or the next node is
    not linked yet. -/
theorem ChainInv.empty_or_unlinked {s : State T Producer} {rest : List (ℕ × T)}
    (h : ChainInv s rest) (hhand : s.inHand = []) (hnone : s.next s.tail = none) :
    s.popped = s.exchanged ∨ OldestUnlinked s := by
  have hhist := h.history
  rw [hhand, List.append_nil] at hhist
  cases rest with
  | nil => exact .inl (by simpa using hhist.symm)
  | cons e rest' =>
    obtain ⟨n, v⟩ := e
    right
    have hadj : Adjacent (s.chain ((n, v) :: rest')) s.tail n := .inl ⟨rfl, rfl⟩
    rcases h.linked _ _ hadj with hl | ⟨-, p, hp⟩
    · rw [hnone] at hl
      cases hl
    · refine ⟨p, s.tail, n, v, ?_, hp⟩
      rw [hhist, List.getElem?_append_right (le_refl _)]
      simp

/-- The consumer decides on `nullopt` only when its load finds no
    successor of the sentinel. -/
theorem returns_none_inv {s s' : State T Producer} {rest : List (ℕ × T)}
    (h : ChainInv s rest) (hs : consumerStep s = some s') {n : ℕ}
    (hnone : s'.consumer = .popReturn n none) :
    s.consumer = .loadNext ∧ s.next s.tail = none := by
  have hok := h.consumer_ok
  cases hc : s.consumer with
  | idle | popReturn m v => simp [consumerStep, hc] at hs
  | loadNext =>
    simp only [consumerStep, hc] at hs
    cases hn : s.next s.tail with
    | none => exact ⟨rfl, rfl⟩
    | some m =>
      simp only [hn, Option.some.injEq] at hs
      subst hs
      cases hnone
  | advance t m | take t m =>
    simp only [consumerStep, hc, Option.some.injEq] at hs
    subst hs
    cases hnone
  | free t m v =>
    simp only [consumerStep, hc, Option.some.injEq] at hs
    subst hs
    simp only [ConsumerPC.popReturn.injEq] at hnone
    obtain ⟨-, rfl⟩ := hnone
    simp only [ConsumerOk, hc] at hok
    simp at hok

variable [DecidableEq T] [DecidableEq Producer]

/-- Draining a queue in which no link is pending returns what is left. -/
theorem drain_eq {rest : List (ℕ × T)} :
    ∀ {tr : List (Label T Producer)} {s : State T Producer},
      (system T Producer).Run tr s → ChainInv s rest → s.consumer = .idle →
      (∀ p x y, s.producer p ≠ .link x y) →
      ∀ fuel, rest.length < fuel → drain fuel s = some (rest.map Prod.snd) := by
  -- along the chain; each pop is a run of its own, so the invariant holds after it
  induction rest with
  | nil =>
    intro tr s _ h hidle hno fuel hfuel
    obtain ⟨k, rfl⟩ : ∃ k, fuel = k + 1 := ⟨fuel - 1, by omega⟩
    have hlast := h.chain_last
    simp only [State.chain, List.map_nil, List.getLast?_singleton, Option.some.injEq] at hlast
    have hnone : s.next s.tail = none := by
      rw [hlast]
      exact h.head_open
    simp [drain, pop, hnone]
  | cons e rest ih =>
    intro tr s hrun h hidle hno fuel hfuel
    obtain ⟨n, v⟩ := e
    obtain ⟨k, rfl⟩ : ∃ k, fuel = k + 1 := ⟨fuel - 1, by omega⟩
    have hnext : s.next s.tail = some n := by
      rcases h.linked _ _ (.inl ⟨rfl, rfl⟩) with hl | ⟨-, p, hp⟩
      · exact hl
      · exact (hno p _ _ hp).elim
    have hval : s.value n = some v := h.values (n, v) List.mem_cons_self
    obtain ⟨tr', hexec, -, -⟩ := exec_pop hidle
    have hrun' : (system T Producer).Run (tr ++ tr') (pop s).2 :=
      System.Run.exec_append hrun hexec
    obtain ⟨rest', h'⟩ := inv_run hrun'
    have hhand : s.inHand = [] := by simp [State.inHand, hidle]
    have hhand' : (pop s).2.inHand = [] := by simp [pop, hnext, State.inHand, hidle]
    have hrest' : rest' = rest := by
      rw [h'.rest_eq hhand']
      have hhist := h.history
      rw [hhand, List.append_nil] at hhist
      simp only [pop, hnext, hval, delivered, hhist]
      simp
    subst hrest'
    have hpop : drain k (pop s).2 = some (rest'.map Prod.snd) := by
      refine ih hrun' h' ?_ ?_ k (by simp at hfuel; omega)
      · simp [pop, hnext, hidle]
      · intro p x y
        simpa [pop, hnext] using hno p x y
    have hstep : drain (k + 1) s = (drain k (pop s).2).map (v :: ·) := by
      simp [drain, pop, hnext, hval]
    rw [hstep, hpop]
    rfl

/-- **Delivery.** In every reachable state of the queue, whatever the
    producers and the consumer are doing: the returned values are a
    prefix of the exchanged ones, node by node, and no node occurs twice;
    the consumer only decides on `nullopt` when everything exchanged has
    been returned or the oldest push left has not linked; when no push is
    in progress, draining returns exactly the values left; and neither a
    producer's pending predecessor nor the consumer's sentinel is ever a
    deleted node. -/
theorem queue_delivers_in_exchange_order {tr : List (Label T Producer)}
    {s : State T Producer} (hrun : (system T Producer).Run tr s) :
    s.popped <+: s.exchanged ∧
    (s.exchanged.map Prod.fst).Nodup ∧
    (∀ s' n, next s .consumer = some s' → s'.consumer = .popReturn n none →
      s.popped = s.exchanged ∨ OldestUnlinked s) ∧
    ((∀ p, s.producer p = .idle) → s.consumer = .idle →
      ∀ fuel, s.exchanged.length - s.popped.length < fuel →
        drain fuel s = some ((s.exchanged.drop s.popped.length).map Prod.snd)) ∧
    (∀ p prev node, s.producer p = .link prev node → s.alive prev = true) ∧
    s.alive s.tail = true := by
  obtain ⟨rest, h⟩ := inv_run hrun
  refine ⟨?_, ?_, ?_, ?_, ?_, ?_⟩
  · exact ⟨s.inHand ++ rest, by rw [← List.append_assoc]; exact h.history.symm⟩
  · exact (List.nodup_cons.mp h.nodes_nodup).2
  · intro s' n hs hnone
    obtain ⟨hc, hn⟩ := returns_none_inv h hs hnone
    exact h.empty_or_unlinked (by simp [State.inHand, hc]) hn
  · intro hquiet hidle fuel hfuel
    have hhand : s.inHand = [] := by simp [State.inHand, hidle]
    have hrest := h.rest_eq hhand
    subst hrest
    refine drain_eq hrun h hidle ?_ fuel (by simpa using hfuel)
    intro p x y
    simp [hquiet p]
  · intro p x y hp
    exact h.alive x (h.pending p x y hp).1.mem_left
  · exact h.alive _ List.mem_cons_self

/-- Two pushes exchange, the second links first, and a pop in between
    finds nothing. -/
def secondLinksFirst : List (Label ℕ Bool) :=
  [.callPush false 5, .callPush true 6, .producer true, .producer false, .producer false,
   .callPop, .consumer, .retPop none, .producer true, .retPush true, .retPush false,
   .callPop, .consumer, .consumer, .consumer, .consumer, .retPop (some 6)]

theorem secondLinksFirst_delivers : ∃ s, (system ℕ Bool).Run secondLinksFirst s ∧
    s.popped <+: s.exchanged ∧
    (s.exchanged.map Prod.fst).Nodup ∧
    (∀ s' n, next s .consumer = some s' → s'.consumer = .popReturn n none →
      s.popped = s.exchanged ∨ OldestUnlinked s) ∧
    ((∀ p, s.producer p = .idle) → s.consumer = .idle →
      ∀ fuel, s.exchanged.length - s.popped.length < fuel →
        drain fuel s = some ((s.exchanged.drop s.popped.length).map Prod.snd)) ∧
    (∀ p prev node, s.producer p = .link prev node → s.alive prev = true) ∧
    s.alive s.tail = true := by
  have hexec : (System.exec next (initial : State ℕ Bool) secondLinksFirst).isSome := by
    decide
  obtain ⟨s, hs⟩ := Option.isSome_iff_exists.mp hexec
  have hrun : (system ℕ Bool).Run secondLinksFirst s := System.run_of_exec hs
  exact ⟨s, hrun, queue_delivers_in_exchange_order hrun⟩

end Forge.MpscQueue
