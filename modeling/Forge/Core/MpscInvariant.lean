import Forge.Core.MpscQueue
import Mathlib.Data.List.Nodup

/-! # The Multi-Producer Single-Consumer Queue — Invariant

  In every reachable state the nodes from the sentinel on, in the order
  of the `head_` exchanges, form a chain `tail_ :: rest` that ends in
  `head_`. Two neighbours `x, y` of the chain are linked, or exactly one
  producer is about to link them; no producer is about to link anything
  else. The consumer leaves a node behind only over a link that exists,
  so the node it deletes is never the predecessor of a pending link.
-/

open LTS

namespace Forge.MpscQueue

/-! ### Neighbours in a list -/

section adjacent

variable {α : Type*}

/-- `y` directly follows `x`. -/
def Adjacent : List α → α → α → Prop
  | a :: b :: l, x, y => (a = x ∧ b = y) ∨ Adjacent (b :: l) x y
  | _, _, _ => False

@[simp] theorem adjacent_singleton {a x y : α} : ¬ Adjacent [a] x y := fun h => h

theorem adjacent_cons_cons {a b x y : α} {l : List α} :
    Adjacent (a :: b :: l) x y ↔ (a = x ∧ b = y) ∨ Adjacent (b :: l) x y := Iff.rfl

theorem Adjacent.mem_left {l : List α} {x y : α} (h : Adjacent l x y) : x ∈ l := by
  induction l with
  | nil => exact h.elim
  | cons a l ih =>
    cases l with
    | nil => exact h.elim
    | cons b l =>
      rcases h with ⟨rfl, -⟩ | h
      · exact List.mem_cons_self
      · exact List.mem_cons_of_mem _ (ih h)

/-- The pairs of a list extended at its end. -/
theorem adjacent_snoc {l : List α} {n x y : α} :
    Adjacent (l ++ [n]) x y ↔ Adjacent l x y ∨ (l.getLast? = some x ∧ y = n) := by
  induction l with
  | nil => simp [Adjacent]
  | cons a l ih =>
    cases l with
    | nil =>
      simp only [List.cons_append, List.nil_append, adjacent_cons_cons, List.getLast?_singleton,
        Option.some.injEq, adjacent_singleton, or_false, false_or]
      constructor
      · rintro ⟨rfl, rfl⟩; exact ⟨rfl, rfl⟩
      · rintro ⟨rfl, rfl⟩; exact ⟨rfl, rfl⟩
    | cons b l =>
      simp only [List.cons_append, adjacent_cons_cons] at ih ⊢
      rw [ih, List.getLast?_cons_cons, or_assoc]

/-- In a list without repetitions an element has one successor. -/
theorem Adjacent.right_unique {l : List α} {x y y' : α} (hnd : l.Nodup)
    (h : Adjacent l x y) (h' : Adjacent l x y') : y = y' := by
  induction l with
  | nil => exact h.elim
  | cons a l ih =>
    cases l with
    | nil => exact h.elim
    | cons b l =>
      have hnd' := List.nodup_cons.mp hnd
      rcases h with ⟨hax, rfl⟩ | h <;> rcases h' with ⟨hax', hby⟩ | h'
      · exact hby
      · exact absurd h'.mem_left (hax ▸ hnd'.1)
      · exact absurd h.mem_left (hax' ▸ hnd'.1)
      · exact ih hnd'.2 h h'

end adjacent

variable {T Producer : Type*}

/-! ### Definitions -/

/-- The value the consumer has passed but not returned yet. -/
def State.inHand (s : State T Producer) : List (ℕ × T) :=
  match s.consumer with
  | .take _ nxt => delivered nxt (s.value nxt)
  | .free _ nxt v => delivered nxt v
  | .popReturn node v => delivered node v
  | .idle | .loadNext | .advance _ _ => []

/-- All nodes ever exchanged into the queue, the first sentinel included. -/
def State.nodes (s : State T Producer) : List ℕ := 0 :: s.exchanged.map Prod.fst

/-- The nodes from the sentinel on. -/
def State.chain (s : State T Producer) (rest : List (ℕ × T)) : List ℕ :=
  s.tail :: rest.map Prod.fst

/-- What the consumer knows. -/
def ConsumerOk (s : State T Producer) (rest : List (ℕ × T)) : Prop :=
  match s.consumer with
  | .idle | .loadNext | .popReturn _ _ => True
  | .advance tail nxt => tail = s.tail ∧ s.next tail = some nxt
  | .take tail nxt =>
      nxt = s.tail ∧ (s.value nxt).isSome ∧ tail ∈ s.nodes ∧ tail ∉ s.chain rest ∧
        s.alive tail = true
  | .free tail nxt v =>
      nxt = s.tail ∧ v.isSome ∧ tail ∈ s.nodes ∧ tail ∉ s.chain rest ∧ s.alive tail = true

/-- The invariant, with the nodes and values that are still to be passed. -/
structure ChainInv (s : State T Producer) (rest : List (ℕ × T)) : Prop where
  history : s.exchanged = s.popped ++ s.inHand ++ rest
  nodes_nodup : s.nodes.Nodup
  nodes_lt : ∀ x ∈ s.nodes, x < s.fresh
  tail_mem : s.tail ∈ s.nodes
  chain_nodup : (s.chain rest).Nodup
  chain_last : (s.chain rest).getLast? = some s.head
  alive : ∀ x ∈ s.chain rest, s.alive x = true
  values : ∀ e ∈ rest, s.value e.1 = some e.2
  linked : ∀ x y, Adjacent (s.chain rest) x y →
    s.next x = some y ∨ (s.next x = none ∧ ∃ p, s.producer p = .link x y)
  head_open : s.next s.head = none
  pending : ∀ p x y, s.producer p = .link x y → Adjacent (s.chain rest) x y ∧ s.next x = none
  pending_unique : ∀ p q x y z, s.producer p = .link x y → s.producer q = .link x z → p = q
  allocated : ∀ p n v, s.producer p = .exchange n v →
    n ∉ s.nodes ∧ n < s.fresh ∧ s.next n = none ∧ s.alive n = true ∧ s.value n = some v
  allocated_unique : ∀ p q n v w,
    s.producer p = .exchange n v → s.producer q = .exchange n w → p = q
  consumer_ok : ConsumerOk s rest

/-- The invariant of the queue. -/
def Inv (s : State T Producer) : Prop := ∃ rest, ChainInv s rest

namespace ChainInv

variable {s : State T Producer} {rest : List (ℕ × T)}

theorem chain_subset (h : ChainInv s rest) {x : ℕ} (hx : x ∈ s.chain rest) : x ∈ s.nodes := by
  rcases List.mem_cons.mp hx with rfl | hx
  · exact h.tail_mem
  · refine List.mem_cons_of_mem _ ?_
    rw [h.history, List.map_append]
    exact List.mem_append_right _ hx

theorem chain_lt (h : ChainInv s rest) {x : ℕ} (hx : x ∈ s.chain rest) : x < s.fresh :=
  h.nodes_lt x (h.chain_subset hx)

theorem head_mem (h : ChainInv s rest) : s.head ∈ s.chain rest :=
  List.mem_of_getLast? h.chain_last

/-- Nothing follows `head_`. -/
theorem not_adjacent_head (h : ChainInv s rest) {y : ℕ} :
    ¬ Adjacent (s.chain rest) s.head y := by
  intro hadj
  obtain ⟨pre, hpre⟩ : ∃ pre, s.chain rest = pre ++ [s.head] :=
    ⟨_, (List.dropLast_append_getLast? _ h.chain_last).symm⟩
  have hnd := h.chain_nodup
  rw [hpre] at hnd hadj
  -- `head_` is the last of the chain, and stands nowhere else in it
  have hhead : s.head ∉ pre := fun hmem =>
    (List.nodup_append.mp hnd).2.2 _ hmem _ (List.mem_singleton.mpr rfl) rfl
  rcases adjacent_snoc.mp hadj with hadj | ⟨hlast, -⟩
  · exact hhead hadj.mem_left
  · exact hhead (List.mem_of_getLast? hlast)

end ChainInv

/-! ### Frame lemmas for the consumer -/

/-- A producer's step keeps what the consumer knows. -/
theorem ConsumerOk.frame {s s' : State T Producer} {rest rest' : List (ℕ × T)}
    (h : ConsumerOk s rest) (hconsumer : s'.consumer = s.consumer) (htail : s'.tail = s.tail)
    (hnext : ∀ y, s.next s.tail = some y → s'.next s.tail = some y)
    (hvalue : s'.value s.tail = s.value s.tail)
    (hnodes : ∀ x ∈ s.nodes, x ∈ s'.nodes)
    (hchain : ∀ x ∈ s.nodes, x ∉ s.chain rest → x ∉ s'.chain rest')
    (halive : ∀ x ∈ s.nodes, s'.alive x = s.alive x) : ConsumerOk s' rest' := by
  unfold ConsumerOk at h ⊢
  rw [hconsumer]
  cases hc : s.consumer with
  | idle | loadNext | popReturn n r => trivial
  | advance t n =>
    simp only [hc] at h ⊢
    obtain ⟨rfl, hn⟩ := h
    exact ⟨htail.symm, hnext n hn⟩
  | take t n =>
    simp only [hc] at h ⊢
    obtain ⟨rfl, hv, hmem, hnot, hlive⟩ := h
    exact ⟨htail.symm, by rw [hvalue]; exact hv, hnodes t hmem, hchain t hmem hnot,
      by rw [halive t hmem]; exact hlive⟩
  | free t n r =>
    simp only [hc] at h ⊢
    obtain ⟨rfl, hv, hmem, hnot, hlive⟩ := h
    exact ⟨htail.symm, hv, hnodes t hmem, hchain t hmem hnot,
      by rw [halive t hmem]; exact hlive⟩

/-- What the consumer holds does not depend on the producers. -/
theorem ConsumerOk.inHand_eq {s s' : State T Producer} {rest : List (ℕ × T)}
    (h : ConsumerOk s rest) (hconsumer : s'.consumer = s.consumer)
    (hvalue : s'.value s.tail = s.value s.tail) : s'.inHand = s.inHand := by
  unfold State.inHand ConsumerOk at *
  rw [hconsumer]
  cases hc : s.consumer with
  | take t n =>
    simp only [hc] at h ⊢
    obtain ⟨rfl, -⟩ := h
    rw [hvalue]
  | idle | loadNext | advance t n | free t n r | popReturn n r => rfl

/-! ### The producers' steps keep the invariant -/

section producers

variable [DecidableEq Producer]

/-- A producer found elsewhere than where `p` has just come to is not `p`,
    and has not moved. -/
theorem other_of_update {pcs : Producer → ProducerPC T} {p q : Producer} {pc pc' : ProducerPC T}
    (hq : Function.update pcs p pc' q = pc) (hne : pc ≠ pc') : q ≠ p ∧ pcs q = pc := by
  have hqp : q ≠ p := by
    rintro rfl
    rw [Function.update_self] at hq
    exact hne hq.symm
  rw [Function.update_of_ne hqp] at hq
  exact ⟨hqp, hq⟩

/-- One producer at most is at a place, if `p` does not come to it while
    another one is there. -/
theorem unique_update {pcs : Producer → ProducerPC T} {p q r : Producer} {pc : ProducerPC T}
    {P : ProducerPC T → Prop} (h : ∀ q r, P (pcs q) → P (pcs r) → q = r)
    (hnew : P pc → ∀ q, ¬P (pcs q)) (hq : P (Function.update pcs p pc q))
    (hr : P (Function.update pcs p pc r)) : q = r := by
  by_cases hqp : q = p <;> by_cases hrp : r = p
  · rw [hqp, hrp]
  · rw [hqp, Function.update_self] at hq
    rw [Function.update_of_ne hrp] at hr
    exact (hnew hq r hr).elim
  · rw [hrp, Function.update_self] at hr
    rw [Function.update_of_ne hqp] at hq
    exact (hnew hr q hq).elim
  · rw [Function.update_of_ne hqp] at hq
    rw [Function.update_of_ne hrp] at hr
    exact h q r hq hr

/-- A pending link of a producer that is not about to link is not its own. -/
theorem link_update {pcs : Producer → ProducerPC T} {p : Producer} {pc : ProducerPC T}
    {x y : ℕ} (hp : ∀ x y, pcs p ≠ .link x y) (h : ∃ q, pcs q = .link x y) :
    ∃ q, Function.update pcs p pc q = .link x y := by
  obtain ⟨q, hq⟩ := h
  have hqp : q ≠ p := by
    rintro rfl
    exact hp x y hq
  exact ⟨q, by rw [Function.update_of_ne hqp]; exact hq⟩

/-- `push` is called: a fresh node, known to its producer only. -/
theorem ChainInv.callPush {s : State T Producer} {rest : List (ℕ × T)} (h : ChainInv s rest)
    {p : Producer} (hp : s.producer p = .idle) (v : T) :
    ChainInv ({ s with
      next := Function.update s.next s.fresh none
      value := Function.update s.value s.fresh (some v)
      alive := Function.update s.alive s.fresh true
      fresh := s.fresh + 1
      producer := Function.update s.producer p (.exchange s.fresh v) } : State T Producer)
      rest := by
  have hne : ∀ x ∈ s.nodes, x ≠ s.fresh := fun x hx => (h.nodes_lt x hx).ne
  have hchain : ∀ x ∈ s.chain rest, x ≠ s.fresh := fun x hx => (h.chain_lt hx).ne
  -- `new Node`: no node of the queue is written
  have htail := hne _ h.tail_mem
  have hlink : ∀ {q x y}, Function.update s.producer p (.exchange s.fresh v) q = .link x y →
      s.producer q = .link x y := fun hq => (other_of_update hq (by simp)).2
  exact { h with
    history := by
      refine h.history.trans (congrArg (s.popped ++ · ++ rest) (Eq.symm ?_))
      exact h.consumer_ok.inHand_eq rfl (Function.update_of_ne htail _ _)
    nodes_lt := by
      intro x hx
      have := h.nodes_lt x hx
      show x < s.fresh + 1
      omega
    alive := by
      intro x hx
      simp only [Function.update_of_ne (hchain x hx)]
      exact h.alive x hx
    values := by
      intro e he
      have hmem : e.1 ∈ s.chain rest := List.mem_cons_of_mem _ (List.mem_map_of_mem he)
      simp only [Function.update_of_ne (hchain _ hmem)]
      exact h.values e he
    linked := by
      intro x y hxy
      simp only [Function.update_of_ne (hchain x hxy.mem_left)]
      rcases h.linked x y hxy with hl | ⟨hnone, hq⟩
      · exact .inl hl
      · exact .inr ⟨hnone, link_update (by simp [hp]) hq⟩
    head_open := by
      simp only [Function.update_of_ne (hchain _ h.head_mem)]
      exact h.head_open
    pending := by
      intro q x y hq
      obtain ⟨hadj, hnone⟩ := h.pending q x y (hlink hq)
      refine ⟨hadj, ?_⟩
      simp only [Function.update_of_ne (hchain x hadj.mem_left)]
      exact hnone
    pending_unique := fun q r x y z hq hr =>
      h.pending_unique q r x y z (hlink hq) (hlink hr)
    allocated := by
      intro q n w hq
      by_cases hqp : q = p
      · subst hqp
        simp only [Function.update_self, ProducerPC.exchange.injEq] at hq
        obtain ⟨rfl, rfl⟩ := hq
        exact ⟨fun hmem => hne _ hmem rfl, by show _ < _ + 1; omega, by simp, by simp, by simp⟩
      · simp only [Function.update_of_ne hqp] at hq
        obtain ⟨hmem, hlt, hnext, halive, hval⟩ := h.allocated q n w hq
        have hnf : n ≠ s.fresh := hlt.ne
        refine ⟨hmem, by show _ < _ + 1; omega, ?_, ?_, ?_⟩ <;>
          simpa only [Function.update_of_ne hnf]
    allocated_unique := by
      intro q r n w w' hq hr
      refine unique_update (P := fun pc => ∃ w, pc = .exchange n w) ?_ ?_ ⟨w, hq⟩ ⟨w', hr⟩
      · rintro q r ⟨w, hq⟩ ⟨w', hr⟩
        exact h.allocated_unique q r n w w' hq hr
      · -- the fresh node is in nobody else's hands
        rintro ⟨w, hw⟩ q ⟨w', hq⟩
        cases hw
        have := (h.allocated q _ w' hq).2.1
        omega
    consumer_ok := by
      refine h.consumer_ok.frame rfl rfl ?_ ?_ (fun _ hx => hx) (fun _ _ hx => hx) ?_
      · intro y hy
        simpa only [Function.update_of_ne htail] using hy
      · simp only [Function.update_of_ne htail]
      · intro x hx
        simp only [Function.update_of_ne (hne x hx)] }

/-- The exchange of `head_`: the new node joins the chain behind a gap
    that its producer is about to close. -/
theorem ChainInv.exchange {s : State T Producer} {rest : List (ℕ × T)} (h : ChainInv s rest)
    {p : Producer} {n : ℕ} {v : T} (hp : s.producer p = .exchange n v) :
    ChainInv ({ s with
      head := n
      exchanged := s.exchanged ++ [(n, v)]
      producer := Function.update s.producer p (.link s.head n) } : State T Producer)
      (rest ++ [(n, v)]) := by
  obtain ⟨hfresh, hlt, hnext, halive, hval⟩ := h.allocated p n v hp
  -- the node of this producer is in nobody else's hands yet
  have hnchain : n ∉ s.chain rest := fun hmem => hfresh (h.chain_subset hmem)
  have hchain : s.tail :: (rest ++ [(n, v)]).map Prod.fst = s.chain rest ++ [n] := by
    simp [State.chain]
  have hnodes : 0 :: (s.exchanged ++ [(n, v)]).map Prod.fst = s.nodes ++ [n] := by
    simp [State.nodes]
  exact {
    history := by
      have hhist := h.history
      show s.exchanged ++ [(n, v)] = s.popped ++ s.inHand ++ (rest ++ [(n, v)])
      rw [← List.append_assoc, ← hhist]
    nodes_nodup := by
      show (0 :: (s.exchanged ++ [(n, v)]).map Prod.fst).Nodup
      rw [hnodes, ← List.concat_eq_append]
      exact List.Nodup.concat hfresh h.nodes_nodup
    nodes_lt := by
      intro x hx
      change x ∈ 0 :: (s.exchanged ++ [(n, v)]).map Prod.fst at hx
      rw [hnodes, List.mem_append, List.mem_singleton] at hx
      rcases hx with hx | rfl
      · exact h.nodes_lt x hx
      · exact hlt
    tail_mem := by
      show s.tail ∈ 0 :: (s.exchanged ++ [(n, v)]).map Prod.fst
      rw [hnodes]
      exact List.mem_append_left _ h.tail_mem
    chain_nodup := by
      show (s.tail :: (rest ++ [(n, v)]).map Prod.fst).Nodup
      rw [hchain, ← List.concat_eq_append]
      exact List.Nodup.concat hnchain h.chain_nodup
    chain_last := by
      show (s.tail :: (rest ++ [(n, v)]).map Prod.fst).getLast? = some n
      rw [hchain]
      simp
    alive := by
      intro x hx
      change x ∈ s.tail :: (rest ++ [(n, v)]).map Prod.fst at hx
      rw [hchain, List.mem_append, List.mem_singleton] at hx
      rcases hx with hx | rfl
      · exact h.alive x hx
      · exact halive
    values := by
      intro e he
      rcases List.mem_append.mp he with he | he
      · exact h.values e he
      · rw [List.mem_singleton.mp he]
        exact hval
    linked := by
      intro x y hxy
      change Adjacent (s.tail :: (rest ++ [(n, v)]).map Prod.fst) x y at hxy
      rw [hchain, adjacent_snoc] at hxy
      rcases hxy with hxy | ⟨hlast, rfl⟩
      · rcases h.linked x y hxy with hl | ⟨hnone, hq⟩
        · exact .inl hl
        · exact .inr ⟨hnone, link_update (by simp [hp]) hq⟩
      · -- the gap between the previous head and the new node
        have hx : x = s.head := by
          have hl := h.chain_last
          rw [hlast] at hl
          exact Option.some.inj hl
        subst hx
        exact .inr ⟨h.head_open, p, by simp⟩
    head_open := hnext
    pending := by
      intro q x y hq
      show Adjacent (s.tail :: (rest ++ [(n, v)]).map Prod.fst) x y ∧ s.next x = none
      rw [hchain, adjacent_snoc]
      by_cases hqp : q = p
      · subst hqp
        simp only [Function.update_self, ProducerPC.link.injEq] at hq
        obtain ⟨rfl, rfl⟩ := hq
        exact ⟨.inr ⟨h.chain_last, rfl⟩, h.head_open⟩
      · simp only [Function.update_of_ne hqp] at hq
        obtain ⟨hadj, hnone⟩ := h.pending q x y hq
        exact ⟨.inl hadj, hnone⟩
    pending_unique := by
      intro q r x y z hq hr
      refine unique_update (P := fun pc => ∃ y, pc = .link x y) ?_ ?_ ⟨y, hq⟩ ⟨z, hr⟩
      · rintro q r ⟨y, hq⟩ ⟨z, hr⟩
        exact h.pending_unique q r x y z hq hr
      · -- nobody waits behind the old head: it had no successor
        rintro ⟨y, hy⟩ q ⟨z, hq⟩
        cases hy
        exact h.not_adjacent_head (h.pending q _ _ hq).1
    allocated := by
      intro q m w hq
      obtain ⟨hqp, hold⟩ := other_of_update hq (by simp)
      obtain ⟨hmem, hrest⟩ := h.allocated q m w hold
      refine ⟨?_, hrest⟩
      intro hm
      change m ∈ 0 :: (s.exchanged ++ [(n, v)]).map Prod.fst at hm
      rw [hnodes, List.mem_append, List.mem_singleton] at hm
      rcases hm with hm | rfl
      · exact hmem hm
      · exact hqp (h.allocated_unique q p m w v hold hp)
    allocated_unique := fun q r m w w' hq hr =>
      h.allocated_unique q r m w w' (other_of_update hq (by simp)).2
        (other_of_update hr (by simp)).2
    consumer_ok := by
      refine h.consumer_ok.frame rfl rfl (fun _ hy => hy) rfl ?_ ?_ (fun _ _ => rfl)
      · intro x hx
        show x ∈ 0 :: (s.exchanged ++ [(n, v)]).map Prod.fst
        rw [hnodes]
        exact List.mem_append_left _ hx
      · intro x hx hnot hmem
        change x ∈ s.tail :: (rest ++ [(n, v)]).map Prod.fst at hmem
        rw [hchain, List.mem_append, List.mem_singleton] at hmem
        rcases hmem with hmem | rfl
        · exact hnot hmem
        · exact hfresh hx }

/-- The link: the gap is closed by the only producer that waits there. -/
theorem ChainInv.link {s : State T Producer} {rest : List (ℕ × T)} (h : ChainInv s rest)
    {p : Producer} {prev n : ℕ} (hp : s.producer p = .link prev n) :
    ChainInv ({ s with
      next := Function.update s.next prev (some n)
      producer := Function.update s.producer p .pushReturn } : State T Producer) rest := by
  obtain ⟨hadj, hnone⟩ := h.pending p prev n hp
  have hhead : s.head ≠ prev := by
    rintro rfl
    exact h.not_adjacent_head hadj
  exact { h with
    linked := by
      intro x y hxy
      by_cases hx : x = prev
      · subst hx
        have hy : y = n := Adjacent.right_unique h.chain_nodup hxy hadj
        subst hy
        exact .inl (by simp)
      · simp only [Function.update_of_ne hx]
        rcases h.linked x y hxy with hl | ⟨hn, q, hq⟩
        · exact .inl hl
        · refine .inr ⟨hn, q, ?_⟩
          have hqp : q ≠ p := by
            rintro rfl
            rw [hp] at hq
            exact hx (ProducerPC.link.inj hq).1.symm
          rw [Function.update_of_ne hqp]
          exact hq
    head_open := by
      simp only [Function.update_of_ne hhead]
      exact h.head_open
    pending := by
      intro q x y hlk
      obtain ⟨hqp, hq⟩ := other_of_update hlk (by simp)
      obtain ⟨hadj', hnone'⟩ := h.pending q x y hq
      refine ⟨hadj', ?_⟩
      have hx : x ≠ prev := by
        rintro rfl
        exact hqp (h.pending_unique q p x y n hq hp)
      simp only [Function.update_of_ne hx]
      exact hnone'
    pending_unique := fun q r x y z hq hr =>
      h.pending_unique q r x y z (other_of_update hq (by simp)).2 (other_of_update hr (by simp)).2
    allocated := by
      intro q m w hq
      obtain ⟨hmem, hlt, hnext, hrest⟩ := h.allocated q m w (other_of_update hq (by simp)).2
      have hm : m ≠ prev := by
        rintro rfl
        exact hmem (h.chain_subset hadj.mem_left)
      exact ⟨hmem, hlt, by simpa only [Function.update_of_ne hm] using hnext, hrest⟩
    allocated_unique := fun q r m w w' hq hr =>
      h.allocated_unique q r m w w' (other_of_update hq (by simp)).2
        (other_of_update hr (by simp)).2
    consumer_ok := by
      refine h.consumer_ok.frame rfl rfl ?_ rfl (fun _ hx => hx) (fun _ _ hx => hx)
        (fun _ _ => rfl)
      intro y hy
      -- a successor the consumer has seen is not the one just stored
      have hx : s.tail ≠ prev := by
        rintro heq
        rw [heq, hnone] at hy
        cases hy
      simpa only [Function.update_of_ne hx] using hy }

/-- The return of a `push`: the producer had nothing pending. -/
theorem ChainInv.retPush {s : State T Producer} {rest : List (ℕ × T)} (h : ChainInv s rest)
    {p : Producer} (hp : s.producer p = .pushReturn) :
    ChainInv ({ s with
      producer := Function.update s.producer p .idle } : State T Producer) rest :=
  { h with
    linked := by
      intro x y hxy
      rcases h.linked x y hxy with hl | ⟨hnone, hq⟩
      · exact .inl hl
      · exact .inr ⟨hnone, link_update (by simp [hp]) hq⟩
    pending := fun q x y hq => h.pending q x y (other_of_update hq (by simp)).2
    pending_unique := fun q r x y z hq hr =>
      h.pending_unique q r x y z (other_of_update hq (by simp)).2 (other_of_update hr (by simp)).2
    allocated := fun q n v hq => h.allocated q n v (other_of_update hq (by simp)).2
    allocated_unique := fun q r n v w hq hr =>
      h.allocated_unique q r n v w (other_of_update hq (by simp)).2
        (other_of_update hr (by simp)).2
    consumer_ok := h.consumer_ok }

end producers

/-! ### The consumer's steps keep the invariant -/

/-- The consumer steps over an existing link; the node behind it leaves
    the chain, and no pending link starts there. -/
theorem ChainInv.advance {s : State T Producer} {rest : List (ℕ × T)} (h : ChainInv s rest)
    {t n : ℕ} (hc : s.consumer = .advance t n) :
    ∃ v rest', rest = (n, v) :: rest' ∧
      ChainInv ({ s with tail := n, consumer := .take t n } : State T Producer) rest' := by
  have hok := h.consumer_ok
  simp only [ConsumerOk, hc] at hok
  obtain ⟨rfl, hnext⟩ := hok
  -- the sentinel has a successor, so it is not the head
  cases rest with
  | nil =>
    have hlast := h.chain_last
    simp only [State.chain, List.map_nil, List.getLast?_singleton, Option.some.injEq] at hlast
    rw [hlast, h.head_open] at hnext
    cases hnext
  | cons e rest' =>
    obtain ⟨m, v⟩ := e
    have hadj : Adjacent (s.chain ((m, v) :: rest')) s.tail m := .inl ⟨rfl, rfl⟩
    -- the link that was read is the one of the chain
    have hm : m = n := by
      rcases h.linked _ _ hadj with hl | ⟨hnone, -⟩
      · rw [hnext] at hl
        exact (Option.some.inj hl).symm
      · rw [hnext] at hnone
        cases hnone
    subst hm
    have hsub : ∀ x, x ∈ m :: rest'.map Prod.fst → x ∈ s.chain ((m, v) :: rest') :=
      fun x hx => List.mem_cons_of_mem _ hx
    have hval : s.value m = some v := h.values (m, v) List.mem_cons_self
    have hnd := List.nodup_cons.mp h.chain_nodup
    exact ⟨v, rest', rfl, { h with
      history := by
        have hhist := h.history
        simp only [State.inHand, hc, List.append_nil] at hhist
        simp only [State.inHand, hval, delivered, hhist, List.append_assoc,
          List.singleton_append]
      tail_mem := h.chain_subset (hsub m List.mem_cons_self)
      chain_nodup := hnd.2
      chain_last := by
        have hlast := h.chain_last
        simp only [State.chain, List.map_cons, List.getLast?_cons_cons] at hlast
        exact hlast
      alive := fun x hx => h.alive x (hsub x hx)
      values := fun e he => h.values e (List.mem_cons_of_mem _ he)
      linked := fun x y hxy => h.linked x y (.inr hxy)
      pending := by
        intro p x y hp
        obtain ⟨hxy, hnone⟩ := h.pending p x y hp
        rcases hxy with ⟨rfl, -⟩ | hxy
        · rw [hnext] at hnone
          cases hnone
        · exact ⟨hxy, hnone⟩
      consumer_ok :=
        ⟨rfl, by simp [hval], h.tail_mem, hnd.1, h.alive _ List.mem_cons_self⟩ }⟩

/-- A step that only moves the consumer on and keeps what it holds. -/
theorem ChainInv.setConsumer {s : State T Producer} {rest : List (ℕ × T)}
    (h : ChainInv s rest) {pc : ConsumerPC T}
    (hhand : ({ s with consumer := pc } : State T Producer).inHand = s.inHand)
    (hok : ConsumerOk ({ s with consumer := pc } : State T Producer) rest) :
    ChainInv ({ s with consumer := pc } : State T Producer) rest :=
  { h with
    history := by rw [hhand]; exact h.history
    consumer_ok := hok }

/-- The value moves out of the new sentinel. -/
theorem ChainInv.take {s : State T Producer} {rest : List (ℕ × T)} (h : ChainInv s rest)
    {t n : ℕ} (hc : s.consumer = .take t n) :
    ChainInv ({ s with
      value := Function.update s.value n none
      consumer := .free t n (s.value n) } : State T Producer) rest := by
  have hok := h.consumer_ok
  simp only [ConsumerOk, hc] at hok
  obtain ⟨rfl, hsome, hmem, hnot, hlive⟩ := hok
  have hnd := List.nodup_cons.mp h.chain_nodup
  have hhist := h.history
  simp only [State.inHand, hc] at hhist
  exact { h with
    history := hhist
    values := by
      intro e he
      -- the values still to be passed are in the nodes behind the sentinel
      have hne : e.1 ≠ s.tail := by
        intro heq
        exact hnd.1 (heq ▸ List.mem_map_of_mem he)
      simp only [Function.update_of_ne hne]
      exact h.values e he
    allocated := by
      intro p m v hp
      obtain ⟨hm, hlt, hnext, halive, hval⟩ := h.allocated p m v hp
      have hne : m ≠ s.tail := by
        rintro rfl
        exact hm h.tail_mem
      exact ⟨hm, hlt, hnext, halive, by simpa only [Function.update_of_ne hne] using hval⟩
    consumer_ok := ⟨rfl, hsome, hmem, hnot, hlive⟩ }

/-- `delete tail`: the node is in nobody's hands. -/
theorem ChainInv.free {s : State T Producer} {rest : List (ℕ × T)} (h : ChainInv s rest)
    {t n : ℕ} {v : Option T} (hc : s.consumer = .free t n v) :
    ChainInv ({ s with
      alive := Function.update s.alive t false
      consumer := .popReturn n v } : State T Producer) rest := by
  have hok := h.consumer_ok
  simp only [ConsumerOk, hc] at hok
  obtain ⟨rfl, -, hmem, hnot, -⟩ := hok
  have hhist := h.history
  simp only [State.inHand, hc] at hhist
  exact { h with
    history := hhist
    alive := by
      intro x hx
      -- the node that is freed has left the chain
      have hne : x ≠ t := by
        rintro rfl
        exact hnot hx
      simp only [Function.update_of_ne hne]
      exact h.alive x hx
    allocated := by
      intro p m w hp
      obtain ⟨hm, hlt, hnext, halive, hval⟩ := h.allocated p m w hp
      have hne : m ≠ t := by
        rintro rfl
        exact hm hmem
      exact ⟨hm, hlt, hnext, by simpa only [Function.update_of_ne hne] using halive, hval⟩
    consumer_ok := trivial }

/-! ### The whole system -/

/-- Every access of the consumer keeps the invariant. -/
theorem inv_consumerStep {s s' : State T Producer} (h : Inv s)
    (hs : consumerStep s = some s') : Inv s' := by
  obtain ⟨rest, h⟩ := h
  cases hc : s.consumer with
  | idle | popReturn n v => simp [consumerStep, hc] at hs
  | loadNext =>
    simp only [consumerStep, hc] at hs
    cases hn : s.next s.tail with
    | none =>
      simp only [hn, Option.some.injEq] at hs
      subst hs
      exact ⟨rest, h.setConsumer (by simp [State.inHand, hc, delivered]) trivial⟩
    | some n =>
      simp only [hn, Option.some.injEq] at hs
      subst hs
      exact ⟨rest, h.setConsumer (by simp [State.inHand, hc]) ⟨rfl, hn⟩⟩
  | advance t n =>
    simp only [consumerStep, hc, Option.some.injEq] at hs
    subst hs
    obtain ⟨v, rest', -, h'⟩ := h.advance hc
    exact ⟨rest', h'⟩
  | take t n =>
    simp only [consumerStep, hc, Option.some.injEq] at hs
    subst hs
    exact ⟨rest, h.take hc⟩
  | free t n v =>
    simp only [consumerStep, hc, Option.some.injEq] at hs
    subst hs
    exact ⟨rest, h.free hc⟩

theorem inv_initial : Inv (initial : State T Producer) := by
  refine ⟨[], ?_⟩
  constructor <;> simp [initial, State.inHand, State.nodes, State.chain, ConsumerOk]

variable [DecidableEq T] [DecidableEq Producer]

/-- Every step keeps the invariant. -/
theorem inv_step {s s' : State T Producer} {l : Label T Producer} (h : Inv s)
    (hs : next s l = some s') : Inv s' := by
  cases l with
  | callPush p v =>
    obtain ⟨rest, h⟩ := h
    simp only [next, Option.ite_none_right_eq_some, Option.some.injEq] at hs
    obtain ⟨hp, rfl⟩ := hs
    exact ⟨rest, h.callPush hp v⟩
  | producer p =>
    obtain ⟨rest, h⟩ := h
    simp only [next, producerStep] at hs
    cases hp : s.producer p with
    | idle | pushReturn => simp [hp] at hs
    | exchange n v =>
      simp only [hp, Option.some.injEq] at hs
      subst hs
      exact ⟨_, h.exchange hp⟩
    | link x y =>
      simp only [hp, Option.some.injEq] at hs
      subst hs
      exact ⟨rest, h.link hp⟩
  | retPush p =>
    obtain ⟨rest, h⟩ := h
    simp only [next, Option.ite_none_right_eq_some, Option.some.injEq] at hs
    obtain ⟨hp, rfl⟩ := hs
    exact ⟨rest, h.retPush hp⟩
  | callPop =>
    obtain ⟨rest, h⟩ := h
    simp only [next, Option.ite_none_right_eq_some, Option.some.injEq] at hs
    obtain ⟨hc, rfl⟩ := hs
    exact ⟨rest, h.setConsumer (by simp [State.inHand, hc]) trivial⟩
  | consumer => exact inv_consumerStep h hs
  | retPop r =>
    obtain ⟨rest, h⟩ := h
    cases hc : s.consumer with
    | popReturn n v =>
      simp only [next, hc, Option.ite_none_right_eq_some, Option.some.injEq] at hs
      obtain ⟨-, rfl⟩ := hs
      have hhist := h.history
      simp only [State.inHand, hc] at hhist
      refine ⟨rest, ?_⟩
      exact { h with
        history := by simpa [State.inHand] using hhist
        consumer_ok := trivial }
    | _ => simp [next, hc] at hs

/-- The invariant holds in every reachable state. -/
theorem inv_run {tr : List (Label T Producer)} {s : State T Producer}
    (hrun : (system T Producer).Run tr s) : Inv s := by
  refine hrun.invariant (P := Inv) ?_ fun _ _ _ h hs => inv_step h hs
  rintro s rfl
  exact inv_initial

end Forge.MpscQueue
