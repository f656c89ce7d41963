import Forge.Core.WorkStealingDeque

/-! # The Work-Stealing Deque — Invariant

  The elements of the deque are the slots `top ≤ i < limit` of the
  current buffer, where `limit` is `bottom_` except while a `pop` has
  lowered `bottom_` without having decided yet whether it takes the
  element below it.

  * `OwnerOk` ties the owner's local variables to the shared memory. In
    particular a `push` may write slot `b` because its possibly stale
    `t` is a lower bound of `top_`, and a growing `push` has copied
    everything from `t` on.
  * `ThiefOk` is what a thief's stale reads are still worth: *as long as
    `top_` has not moved* since it read `t`, element `t` is in the deque,
    and the slot it read (perhaps of a retired buffer, perhaps of a slot
    that is reused later) holds that element. Only then its
    compare-exchange succeeds.
-/

open LTS

namespace Forge.WorkStealingDeque

variable {T Thief : Type*}

/-! ### Definitions -/

/-- The buffer `buffer_` points to. -/
def State.cur (s : State T Thief) : CircularBuffer T := s.heap s.buffer

/-- One past the index of the bottom-most element. -/
def State.limit (s : State T Thief) : Int :=
  match s.owner with
  | .popLoadTop _ _ | .popCas _ _ | .popRestore _ _ | .popEmpty _ => s.bottom + 1
  -- with `t < b` the element `b` is the owner's since it loaded `top_`
  | .popGet b _ t => if t = b then s.bottom + 1 else s.bottom
  | _ => s.bottom

/-- The buffers below this address have been stored in `buffer_`: while
    the owner fills a new buffer no thief can know it. -/
def State.published (s : State T Thief) : ℕ :=
  match s.owner with
  | .growGet _ _ _ _ newBuf _ | .growPut _ _ _ _ newBuf _ _ | .publish _ _ _ _ newBuf => newBuf
  | _ => s.fresh

/-- A `grow(t, b)` that has copied the indices below `i`. -/
structure Growing (s : State T Thief) (b t : Int) (buf newBuf : ℕ) (i : Int) : Prop where
  bottom_eq : b = s.bottom
  top_nonneg : 0 ≤ t
  top_le : t ≤ s.top
  fits : b - t ≤ s.cur.cap
  buf_eq : buf = s.buffer
  fresh_eq : newBuf + 1 = s.fresh
  cap_eq : (s.heap newBuf).cap = s.cur.cap * 2
  index : t ≤ i ∧ i ≤ b
  copied : ∀ j, t ≤ j → j < i → (s.heap newBuf).get j = s.cur.get j

/-- Growth only depends on the memory it reads, and lets `top_` move on. -/
theorem Growing.mono {s s' : State T Thief} {b t : Int} {buf newBuf : ℕ} {i : Int}
    (h : Growing s b t buf newBuf i) (htop : s.top ≤ s'.top)
    (hmem : s'.bottom = s.bottom ∧ s'.buffer = s.buffer ∧ s'.heap = s.heap ∧
      s'.fresh = s.fresh) : Growing s' b t buf newBuf i := by
  obtain ⟨hbottom, hbuffer, hheap, hfresh⟩ := hmem
  have hcur : s'.cur = s.cur := by simp [State.cur, hheap, hbuffer]
  constructor
  · rw [hbottom]; exact h.bottom_eq
  · exact h.top_nonneg
  · exact le_trans h.top_le htop
  · rw [hcur]; exact h.fits
  · rw [hbuffer]; exact h.buf_eq
  · rw [hfresh]; exact h.fresh_eq
  · rw [hheap, hcur]; exact h.cap_eq
  · exact h.index
  · rw [hheap, hcur]; exact h.copied

/-- What the owner knows. -/
def OwnerOk (s : State T Thief) : Prop :=
  match s.owner with
  | .idle | .pushLoadBottom _ | .pushReturn | .popLoadBottom | .popReturn _ => True
  | .pushLoadTop _ b => b = s.bottom
  | .pushLoadBuffer _ b t => b = s.bottom ∧ 0 ≤ t ∧ t ≤ s.top ∧ b - t ≤ s.cur.cap
  | .growGet _ b t buf newBuf i => Growing s b t buf newBuf i
  | .growPut _ b t buf newBuf i x =>
      Growing s b t buf newBuf i ∧ i < b ∧ x = s.cur.get i
  | .publish _ b t buf newBuf => Growing s b t buf newBuf b
  | .pushPut _ b buf => b = s.bottom ∧ buf = s.buffer ∧ b - s.top < s.cur.cap
  | .pushStoreBottom v b => b = s.bottom ∧ s.cur.get b = v ∧ b - s.top < s.cur.cap
  | .popLoadBuffer b => b = s.bottom - 1
  | .popStoreBottom b buf => b = s.bottom - 1 ∧ buf = s.buffer
  | .popLoadTop b buf => b = s.bottom ∧ buf = s.buffer
  | .popGet b buf t => b = s.bottom ∧ buf = s.buffer ∧ t ≤ s.top ∧ t ≤ b
  | .popCas t x => t = s.bottom ∧ t ≤ s.top ∧ x = s.cur.get t
  | .popRestore t _ => t = s.bottom ∧ s.top = t + 1
  | .popEmpty t => t = s.bottom + 1 ∧ s.top = t

/-- What a thief at `pc` knows. -/
def ThiefOk (s : State T Thief) (pc : ThiefPC T) : Prop :=
  match pc with
  | .idle | .loadTop | .stealReturn _ => True
  | .loadBottom t => t ≤ s.top
  | .loadBuffer t => t ≤ s.top ∧ (s.top = t → t < s.limit)
  | .getSlot t buf => t ≤ s.top ∧ buf < s.published ∧
      (s.top = t → t < s.limit ∧ (s.heap buf).get t = s.cur.get t)
  | .cas t x => t ≤ s.top ∧ (s.top = t → t < s.limit ∧ x = s.cur.get t)

/-- The invariant of the deque. -/
structure Inv (s : State T Thief) : Prop where
  cap_pos : ∀ a, a < s.fresh → 0 < (s.heap a).cap
  buffer_lt : s.buffer < s.published
  published_le : s.published ≤ s.fresh
  top_nonneg : 0 ≤ s.top
  top_le : s.top ≤ s.limit
  fits : s.limit - s.top ≤ s.cur.cap
  owner_ok : OwnerOk s
  thief_ok : ∀ i, ThiefOk s (s.thief i)

theorem Inv.cur_cap_pos {s : State T Thief} (h : Inv s) : 0 < s.cur.cap :=
  h.cap_pos _ (lt_of_lt_of_le h.buffer_lt h.published_le)

/-! ### Frame lemmas for the thieves -/

/-- A thief keeps what it knows when `top_` stays, the deque does not
    lose its top element, and no slot that holds it changes. -/
theorem ThiefOk.frame {s s' : State T Thief} {pc : ThiefPC T} (h : ThiefOk s pc)
    (htop : s'.top = s.top)
    (hlimit : s.top < s.limit → s.top < s'.limit)
    (hpub : s.published ≤ s'.published)
    (hheap : ∀ a, a < s.published → s.top < s.limit →
      (s'.heap a).get s.top = (s.heap a).get s.top)
    (hcur : s.top < s.limit → s'.cur.get s.top = s.cur.get s.top) : ThiefOk s' pc := by
  cases pc with
  | idle | loadTop | stealReturn r => trivial
  | loadBottom t =>
    have hle : t ≤ s.top := h
    show t ≤ s'.top
    omega
  | loadBuffer t =>
    obtain ⟨hle, hin⟩ := h
    refine ⟨by omega, fun heq => ?_⟩
    have heq' : s.top = t := by omega
    subst heq'
    exact hlimit (hin rfl)
  | getSlot t buf =>
    obtain ⟨hle, hbuf, hin⟩ := h
    refine ⟨by omega, by omega, fun heq => ?_⟩
    have heq' : s.top = t := by omega
    subst heq'
    obtain ⟨hlt, hget⟩ := hin rfl
    exact ⟨hlimit hlt, by rw [hheap buf hbuf hlt, hcur hlt, hget]⟩
  | cas t x =>
    obtain ⟨hle, hin⟩ := h
    refine ⟨by omega, fun heq => ?_⟩
    have heq' : s.top = t := by omega
    subst heq'
    obtain ⟨hlt, hget⟩ := hin rfl
    exact ⟨hlimit hlt, by rw [hcur hlt, hget]⟩

/-- Once `top_` has moved on, a thief's old reads carry no promise. -/
theorem ThiefOk.of_top_lt {s s' : State T Thief} {pc : ThiefPC T} (h : ThiefOk s pc)
    (htop : s.top < s'.top) (hpub : s.published ≤ s'.published) : ThiefOk s' pc := by
  cases pc with
  | idle | loadTop | stealReturn r => trivial
  | loadBottom t =>
    have hle : t ≤ s.top := h
    show t ≤ s'.top
    omega
  | loadBuffer t => exact ⟨by have := h.1; omega, fun heq => by have := h.1; omega⟩
  | getSlot t buf =>
    obtain ⟨hle, hbuf, -⟩ := h
    exact ⟨by omega, by omega, fun heq => by omega⟩
  | cas t x => exact ⟨by have := h.1; omega, fun heq => by have := h.1; omega⟩

/-! ### The owner's steps keep the invariant -/

/-- A step that only moves the owner on, and may give up the bottom-most
    element. -/
theorem Inv.setOwner {s : State T Thief} (h : Inv s) {pc : OwnerPC T}
    (hpub : ({ s with owner := pc } : State T Thief).published = s.published)
    (hlimit_le : ({ s with owner := pc } : State T Thief).limit ≤ s.limit)
    (htop_le : s.top ≤ ({ s with owner := pc } : State T Thief).limit)
    (hkeep : s.top < s.limit → s.top < ({ s with owner := pc } : State T Thief).limit)
    (hown : OwnerOk ({ s with owner := pc } : State T Thief)) :
    Inv ({ s with owner := pc } : State T Thief) where
  cap_pos := h.cap_pos
  buffer_lt := by rw [hpub]; exact h.buffer_lt
  published_le := by rw [hpub]; exact h.published_le
  top_nonneg := h.top_nonneg
  top_le := htop_le
  fits := by
    have hfits := h.fits
    show _ - s.top ≤ s.cur.cap
    omega
  owner_ok := hown
  thief_ok := fun i =>
    (h.thief_ok i).frame rfl hkeep hpub.ge (fun _ _ _ => rfl) (fun _ => rfl)

/-- A step that only moves the owner on and decides nothing about an
    element. -/
theorem Inv.moveOwner {s : State T Thief} (h : Inv s) {pc : OwnerPC T}
    (hpub : ({ s with owner := pc } : State T Thief).published = s.published)
    (hlimit : ({ s with owner := pc } : State T Thief).limit = s.limit)
    (hown : OwnerOk ({ s with owner := pc } : State T Thief)) :
    Inv ({ s with owner := pc } : State T Thief) := by
  refine h.setOwner hpub hlimit.le ?_ (fun hlt => ?_) hown
  · rw [hlimit]
    exact h.top_le
  · rw [hlimit]
    exact hlt

/-- `push` allocates the new buffer: no published buffer changes. -/
theorem Inv.startGrow [Inhabited T] {s : State T Thief} (h : Inv s) {v : T} {b t : Int}
    (hpc : s.owner = .pushLoadBuffer v b t) :
    Inv ({ s with
      heap := Function.update s.heap s.fresh (.new (s.cur.cap * 2))
      fresh := s.fresh + 1
      owner := .growGet v b t s.buffer s.fresh t } : State T Thief) := by
  have hown := h.owner_ok
  simp only [OwnerOk, hpc] at hown
  obtain ⟨hb, ht0, htop, hfits⟩ := hown
  have hpub : s.published = s.fresh := by simp [State.published, hpc]
  have hlimit : s.limit = s.bottom := by simp [State.limit, hpc]
  have hbuf : s.buffer ≠ s.fresh := by have := h.buffer_lt; omega
  have hcap := h.cur_cap_pos
  have hold : ∀ a, a < s.fresh → Function.update s.heap s.fresh
      (.new (s.cur.cap * 2)) a = s.heap a :=
    fun a ha => Function.update_of_ne (by omega) _ _
  refine ⟨fun a ha => ?_, ?_, ?_, h.top_nonneg, ?_, ?_, ?_, fun i => ?_⟩
  · rcases Nat.lt_succ_iff_lt_or_eq.mp ha with hlt | rfl
    · simp only [hold a hlt]; exact h.cap_pos a hlt
    · simp; omega
  · have := h.buffer_lt
    simp [State.published]; omega
  · simp [State.published]
  · have := h.top_le
    simp [State.limit]; omega
  · have := h.fits
    simp only [State.limit, State.cur, Function.update_of_ne hbuf] at this ⊢
    simp only [hpc] at this
    exact this
  · exact ⟨hb, ht0, htop, by simpa [State.cur, hbuf] using hfits, rfl, rfl,
      by simp [State.cur, hbuf], ⟨le_refl _, by have := h.top_le; omega⟩,
      fun j h1 h2 => by omega⟩
  · refine (h.thief_ok i).frame rfl ?_ ?_ ?_ ?_
    · intro hlt
      simp only [hlimit] at hlt
      simpa [State.limit] using hlt
    · simp [State.published, hpc]
    · intro a ha _
      rw [hpub] at ha
      simp only [hold a ha]
    · intro _
      simp [State.cur, hbuf]

/-- `grow` stores one slot of the new buffer, which nobody else reads. -/
theorem Inv.growPut {s : State T Thief} (h : Inv s) {v : T} {b t : Int} {buf newBuf : ℕ}
    {i : Int} {x : T} (hpc : s.owner = .growPut v b t buf newBuf i x) :
    Inv ({ s with
      heap := Function.update s.heap newBuf ((s.heap newBuf).put i x)
      owner := .growGet v b t buf newBuf (i + 1) } : State T Thief) := by
  have hown := h.owner_ok
  simp only [OwnerOk, hpc] at hown
  obtain ⟨hg, hib, rfl⟩ := hown
  have hpub : s.published = newBuf := by simp [State.published, hpc]
  have hlimit : s.limit = s.bottom := by simp [State.limit, hpc]
  have hbuf : s.buffer ≠ newBuf := by have := h.buffer_lt; omega
  have hcap := h.cur_cap_pos
  have hold : ∀ a, a < newBuf → Function.update s.heap newBuf
      ((s.heap newBuf).put i (s.cur.get i)) a = s.heap a :=
    fun a ha => Function.update_of_ne (by omega) _ _
  refine ⟨fun a ha => ?_, ?_, ?_, h.top_nonneg, ?_, ?_, ?_, fun j => ?_⟩
  · by_cases hab : a = newBuf
    · subst hab
      simpa using h.cap_pos a ha
    · simpa [Function.update_of_ne hab] using h.cap_pos a ha
  · have := h.buffer_lt
    simp only [hpub] at this
    simpa [State.published] using this
  · have := h.published_le
    simp only [hpub] at this
    simpa [State.published] using this
  · have := h.top_le
    simp only [hlimit] at this
    simpa [State.limit] using this
  · have := h.fits
    simp only [hlimit] at this
    simpa [State.limit, State.cur, hbuf] using this
  · refine ⟨hg.bottom_eq, hg.top_nonneg, hg.top_le, ?_, hg.buf_eq, hg.fresh_eq, ?_,
      ⟨by have := hg.index; omega, by omega⟩, fun j h1 h2 => ?_⟩
    · simpa [State.cur, hbuf] using hg.fits
    · simpa [State.cur, hbuf] using hg.cap_eq
    · -- slot `i` is new; the copied slots are less than a capacity away from it
      simp only [State.cur, Function.update_self, Function.update_of_ne hbuf]
      by_cases hji : j = i
      · subst hji
        exact CircularBuffer.get_put_self _ _ _
      · have hidx := hg.index
        have hfit := hg.fits
        have h0 := hg.top_nonneg
        have hc := hg.cap_eq
        rw [CircularBuffer.get_put_of_ne _ (by omega) (by omega) hji (by omega) (by omega)]
        exact hg.copied j h1 (by omega)
  · refine (h.thief_ok j).frame rfl ?_ ?_ ?_ ?_
    · intro hlt
      simp only [hlimit] at hlt
      simpa [State.limit] using hlt
    · simp [State.published, hpc]
    · intro a ha _
      rw [hpub] at ha
      simp only [hold a ha]
    · intro _
      simp [State.cur, hbuf]

/-- `push` stores `buffer_`: the new buffer agrees with the old one on
    every element of the deque. -/
theorem Inv.publish {s : State T Thief} (h : Inv s) {v : T} {b t : Int} {buf newBuf : ℕ}
    (hpc : s.owner = .publish v b t buf newBuf) :
    Inv ({ s with
      old_buffers := s.old_buffers ++ [buf]
      buffer := newBuf
      owner := .pushPut v b newBuf } : State T Thief) := by
  have hg := h.owner_ok
  simp only [OwnerOk, hpc] at hg
  have hpub : s.published = newBuf := by simp [State.published, hpc]
  have hlimit : s.limit = s.bottom := by simp [State.limit, hpc]
  have hcap := h.cur_cap_pos
  have hnew := hg.cap_eq
  have hfresh := hg.fresh_eq
  have hfits := h.fits
  have htop := h.top_le
  refine ⟨h.cap_pos, ?_, ?_, h.top_nonneg, ?_, ?_, ?_, fun i => ?_⟩
  · simp [State.published]; omega
  · simp [State.published]
  · simp [State.limit]; omega
  · simp only [State.limit, State.cur]
    omega
  · refine ⟨hg.bottom_eq, rfl, ?_⟩
    have hbot := hg.bottom_eq
    simp only [State.cur]
    omega
  · refine (h.thief_ok i).frame rfl ?_ ?_ (fun _ _ _ => rfl) ?_
    · intro hlt
      simp only [hlimit] at hlt
      simpa [State.limit] using hlt
    · simp [State.published, hpc]; omega
    · intro hlt
      have htle := hg.top_le
      have hbot := hg.bottom_eq
      exact hg.copied s.top htle (by omega)

/-- `push` stores the value below `bottom_`, into a slot that holds no
    element of the deque. -/
theorem Inv.pushPut {s : State T Thief} (h : Inv s) {v : T} {b : Int} {buf : ℕ}
    (hpc : s.owner = .pushPut v b buf) :
    Inv ({ s with
      heap := Function.update s.heap buf ((s.heap buf).put b v)
      owner := .pushStoreBottom v b } : State T Thief) := by
  have hown := h.owner_ok
  simp only [OwnerOk, hpc] at hown
  obtain ⟨rfl, rfl, hroom⟩ := hown
  have hpub : s.published = s.fresh := by simp [State.published, hpc]
  have hlimit : s.limit = s.bottom := by simp [State.limit, hpc]
  have h0 := h.top_nonneg
  have htop := h.top_le
  have hkeep : s.top < s.limit → ((s.heap s.buffer).put s.bottom v).get s.top
      = (s.heap s.buffer).get s.top := by
    intro hlt
    have hcap : s.bottom - s.top < (s.heap s.buffer).cap := hroom
    exact CircularBuffer.get_put_of_ne _ h0 (by omega) (by omega) (by omega) (by omega)
  refine ⟨fun a ha => ?_, ?_, ?_, h0, ?_, ?_, ?_, fun i => ?_⟩
  · by_cases hab : a = s.buffer
    · subst hab
      simpa using h.cap_pos _ ha
    · simpa [Function.update_of_ne hab] using h.cap_pos a ha
  · have := h.buffer_lt
    rw [hpub] at this
    simpa [State.published] using this
  · simp [State.published]
  · rw [hlimit] at htop
    simpa [State.limit] using htop
  · have := h.fits
    rw [hlimit] at this
    simpa [State.limit, State.cur] using this
  · refine ⟨rfl, ?_, ?_⟩
    · simp [State.cur]
    · simpa [State.cur] using hroom
  · refine (h.thief_ok i).frame rfl ?_ ?_ ?_ ?_
    · intro hlt
      rw [hlimit] at hlt
      simpa [State.limit] using hlt
    · simp [State.published, hpc]
    · intro a _ hlt
      by_cases hab : a = s.buffer
      · subst hab
        simpa using hkeep hlt
      · simp [Function.update_of_ne hab]
    · intro hlt
      simpa [State.cur] using hkeep hlt

/-- A store to `bottom_` by the owner that does not lower `limit`. -/
theorem Inv.storeBottom {s : State T Thief} (h : Inv s) {pc : OwnerPC T} {b : Int}
    (hpub : ({ s with bottom := b, owner := pc } : State T Thief).published = s.published)
    (hlimit_le : s.limit ≤ ({ s with bottom := b, owner := pc } : State T Thief).limit)
    (hroom : ({ s with bottom := b, owner := pc } : State T Thief).limit - s.top ≤ s.cur.cap)
    (hown : OwnerOk ({ s with bottom := b, owner := pc } : State T Thief)) :
    Inv ({ s with bottom := b, owner := pc } : State T Thief) where
  cap_pos := h.cap_pos
  buffer_lt := by rw [hpub]; exact h.buffer_lt
  published_le := by rw [hpub]; exact h.published_le
  top_nonneg := h.top_nonneg
  top_le := le_trans h.top_le hlimit_le
  fits := hroom
  owner_ok := hown
  thief_ok := fun i => (h.thief_ok i).frame rfl (fun hlt => lt_of_lt_of_le hlt hlimit_le)
    hpub.ge (fun _ _ _ => rfl) (fun _ => rfl)

/-- The owner wins the last element. -/
theorem Inv.popCas {s : State T Thief} (h : Inv s) {x : T}
    (hpc : s.owner = .popCas s.top x) :
    Inv ({ s with top := s.top + 1, owner := .popRestore s.top (some x) }
      : State T Thief) := by
  have hown := h.owner_ok
  simp only [OwnerOk, hpc] at hown
  obtain ⟨hbot, -, -⟩ := hown
  have h0 := h.top_nonneg
  have hcap := h.cur_cap_pos
  refine ⟨h.cap_pos, ?_, ?_, ?_, ?_, ?_, ⟨hbot, rfl⟩, fun i => ?_⟩
  · simpa [State.published, hpc] using h.buffer_lt
  · simp [State.published]
  · show 0 ≤ s.top + 1
    omega
  · show s.top + 1 ≤ s.bottom + 1
    omega
  · show s.bottom + 1 - (s.top + 1) ≤ s.cur.cap
    omega
  · refine (h.thief_ok i).of_top_lt ?_ ?_
    · show s.top < s.top + 1
      omega
    · simp [State.published, hpc]

/-- `grow` loads the next slot, or has copied everything. -/
theorem Inv.growGet [Inhabited T] {s s' : State T Thief} (h : Inv s) {v : T} {b t : Int}
    {buf newBuf : ℕ} {i : Int} (hpc : s.owner = .growGet v b t buf newBuf i)
    (hs : WorkStealingDeque.ownerStep s = some s') : Inv s' := by
  have hown := h.owner_ok
  simp only [OwnerOk, hpc] at hown
  simp only [WorkStealingDeque.ownerStep, hpc] at hs
  split at hs
  · next hib =>
    cases hs
    obtain rfl := hown.buf_eq
    refine h.moveOwner ?_ ?_ ⟨?_, hib, rfl⟩
    · simp [State.published, hpc]
    · simp [State.limit, hpc]
    · exact hown.mono (le_refl _) ⟨rfl, rfl, rfl, rfl⟩
  · next hib =>
    cases hs
    have hidx : i = b := by have := hown.index; omega
    subst hidx
    refine h.moveOwner ?_ ?_ ?_
    · simp [State.published, hpc]
    · simp [State.limit, hpc]
    · exact hown.mono (le_refl _) ⟨rfl, rfl, rfl, rfl⟩

/-- `pop` loads `top_`. With more than one element left the bottom-most
    one is the owner's from here on: `limit` goes down. -/
theorem Inv.popLoadTop [Inhabited T] {s s' : State T Thief} (h : Inv s) {b : Int} {buf : ℕ}
    (hpc : s.owner = .popLoadTop b buf) (hs : WorkStealingDeque.ownerStep s = some s') :
    Inv s' := by
  have hown := h.owner_ok
  have htop := h.top_le
  simp only [OwnerOk, hpc] at hown
  simp only [State.limit, hpc] at htop
  obtain ⟨rfl, rfl⟩ := hown
  simp only [WorkStealingDeque.ownerStep, hpc] at hs
  split at hs
  · next hle =>
    cases hs
    refine h.setOwner ?_ ?_ ?_ ?_ ⟨rfl, rfl, le_refl _, hle⟩
    · simp [State.published, hpc]
    · simp only [State.limit, hpc]
      split <;> omega
    · simp only [State.limit]
      split <;> omega
    · simp only [State.limit, hpc]
      split <;> omega
  · next hgt =>
    cases hs
    refine h.moveOwner ?_ ?_ ⟨?_, rfl⟩
    · simp [State.published, hpc]
    · simp [State.limit, hpc]
    · show s.top = s.bottom + 1
      omega

/-- `pop` loads the slot of its element, which is the last one or already
    its own. -/
theorem Inv.popGet [Inhabited T] {s s' : State T Thief} (h : Inv s) {b t : Int} {buf : ℕ}
    (hpc : s.owner = .popGet b buf t) (hs : WorkStealingDeque.ownerStep s = some s') :
    Inv s' := by
  have hown := h.owner_ok
  simp only [OwnerOk, hpc] at hown
  obtain ⟨rfl, rfl, htt, htb⟩ := hown
  simp only [WorkStealingDeque.ownerStep, hpc] at hs
  split at hs
  · next heq =>
    cases hs
    subst heq
    refine h.moveOwner ?_ ?_ ⟨rfl, htt, rfl⟩
    · simp [State.published, hpc]
    · simp [State.limit, hpc]
  · next hne =>
    cases hs
    refine h.moveOwner ?_ ?_ trivial
    · simp [State.published, hpc]
    · simp [State.limit, hpc, hne]

/-- Every atomic access of the owner keeps the invariant. -/
theorem Inv.ownerStep [Inhabited T] {s s' : State T Thief} (h : Inv s)
    (hs : ownerStep s = some s') : Inv s' := by
  have hown := h.owner_ok
  have hfits := h.fits
  cases hpc : s.owner with
  | idle | pushReturn | popReturn r =>
    simp [WorkStealingDeque.ownerStep, hpc] at hs
  | pushLoadBottom v | popLoadBottom =>
    simp only [WorkStealingDeque.ownerStep, hpc, Option.some.injEq] at hs
    subst hs
    refine h.moveOwner ?_ ?_ rfl
    · simp [State.published, hpc]
    · simp [State.limit, hpc]
  | pushLoadTop v b =>
    simp only [WorkStealingDeque.ownerStep, hpc, Option.some.injEq] at hs
    subst hs
    simp only [OwnerOk, hpc] at hown
    simp only [State.limit, hpc] at hfits
    refine h.moveOwner ?_ ?_ ⟨hown, h.top_nonneg, le_refl _, by rw [hown]; exact hfits⟩
    · simp [State.published, hpc]
    · simp [State.limit, hpc]
  | pushLoadBuffer v b t =>
    simp only [WorkStealingDeque.ownerStep, hpc] at hs
    split at hs
    · cases hs
      exact h.startGrow hpc
    · next hroom =>
      cases hs
      simp only [OwnerOk, hpc] at hown
      refine h.moveOwner ?_ ?_ ⟨hown.1, rfl, ?_⟩
      · simp [State.published, hpc]
      · simp [State.limit, hpc]
      · -- the stale `t` is a lower bound of `top_`: there is room for one more
        show b - s.top < s.cur.cap
        have : ¬ b - t ≥ s.cur.cap := hroom
        omega
  | growGet v b t buf newBuf i => exact h.growGet hpc hs
  | growPut v b t buf newBuf i x =>
    simp only [WorkStealingDeque.ownerStep, hpc, Option.some.injEq] at hs
    subst hs
    exact h.growPut hpc
  | publish v b t buf newBuf =>
    simp only [WorkStealingDeque.ownerStep, hpc, Option.some.injEq] at hs
    subst hs
    exact h.publish hpc
  | pushPut v b buf =>
    simp only [WorkStealingDeque.ownerStep, hpc, Option.some.injEq] at hs
    subst hs
    exact h.pushPut hpc
  | pushStoreBottom v b =>
    simp only [WorkStealingDeque.ownerStep, hpc, Option.some.injEq] at hs
    subst hs
    simp only [OwnerOk, hpc] at hown
    obtain ⟨rfl, -, hroom⟩ := hown
    refine h.storeBottom ?_ ?_ ?_ trivial
    · simp [State.published, hpc]
    · simp [State.limit, hpc]
    · simp only [State.limit]
      omega
  | popLoadBuffer b =>
    simp only [WorkStealingDeque.ownerStep, hpc, Option.some.injEq] at hs
    subst hs
    simp only [OwnerOk, hpc] at hown
    refine h.moveOwner ?_ ?_ ⟨hown, rfl⟩
    · simp [State.published, hpc]
    · simp [State.limit, hpc]
  | popStoreBottom b buf =>
    simp only [WorkStealingDeque.ownerStep, hpc, Option.some.injEq] at hs
    subst hs
    simp only [OwnerOk, hpc] at hown
    simp only [State.limit, hpc] at hfits
    obtain ⟨rfl, rfl⟩ := hown
    -- `bottom_` goes down by one and `limit` stays where it is
    refine h.storeBottom ?_ ?_ ?_ ⟨rfl, rfl⟩
    · simp [State.published, hpc]
    · simp [State.limit, hpc]
    · simp only [State.limit]
      omega
  | popLoadTop b buf => exact h.popLoadTop hpc hs
  | popGet b buf t => exact h.popGet hpc hs
  | popCas t x =>
    simp only [WorkStealingDeque.ownerStep, hpc] at hs
    split at hs
    · next heq =>
      cases hs
      subst heq
      exact h.popCas hpc
    · next hne =>
      cases hs
      have htop := h.top_le
      simp only [OwnerOk, hpc] at hown
      simp only [State.limit, hpc] at htop
      refine h.moveOwner ?_ ?_ ⟨hown.1, ?_⟩
      · simp [State.published, hpc]
      · simp [State.limit, hpc]
      · -- a thief took the last element
        show s.top = t + 1
        omega
  | popRestore t r | popEmpty t =>
    simp only [WorkStealingDeque.ownerStep, hpc, Option.some.injEq] at hs
    subst hs
    simp only [OwnerOk, hpc] at hown
    simp only [State.limit, hpc] at hfits
    obtain ⟨rfl, -⟩ := hown
    refine h.storeBottom ?_ ?_ ?_ trivial
    · simp [State.published, hpc]
    · simp [State.limit, hpc]
    · simpa [State.limit] using hfits

/-! ### The thieves' steps keep the invariant -/

theorem ownerOk_setThief [DecidableEq Thief] {s : State T Thief} (h : OwnerOk s)
    (i : Thief) (pc : ThiefPC T) : OwnerOk (s.setThief i pc) := by
  cases hpc : s.owner with
  | growGet v b t buf newBuf j | publish v b t buf newBuf =>
    simp only [OwnerOk, State.setThief, hpc] at h ⊢
    exact h.mono (le_refl _) ⟨rfl, rfl, rfl, rfl⟩
  | growPut v b t buf newBuf j x =>
    simp only [OwnerOk, State.setThief, hpc] at h ⊢
    exact ⟨h.1.mono (le_refl _) ⟨rfl, rfl, rfl, rfl⟩, h.2⟩
  | _ =>
    simp only [OwnerOk, State.setThief, hpc] at h ⊢
    try exact h

/-- Moving a thief on only needs that thief's own condition. -/
theorem Inv.setThief [DecidableEq Thief] {s : State T Thief} (h : Inv s) {i : Thief}
    {pc : ThiefPC T} (hok : ThiefOk s pc) : Inv (s.setThief i pc) where
  cap_pos := h.cap_pos
  buffer_lt := h.buffer_lt
  published_le := h.published_le
  top_nonneg := h.top_nonneg
  top_le := h.top_le
  fits := h.fits
  owner_ok := ownerOk_setThief h.owner_ok i pc
  thief_ok := fun j => by
    show ThiefOk s (Function.update s.thief i pc j)
    by_cases hji : j = i
    · subst hji
      rw [Function.update_self]
      exact hok
    · rw [Function.update_of_ne hji]
      exact h.thief_ok j

/-- A thief takes the top element. The owner's reads of `top_` stay lower
    bounds, and a `pop` past its decision has left nothing to take. -/
theorem Inv.advanceTop {s : State T Thief} (h : Inv s) (hlt : s.top < s.limit) :
    Inv ({ s with top := s.top + 1 } : State T Thief) := by
  have h0 := h.top_nonneg
  have hfits := h.fits
  have hown := h.owner_ok
  refine ⟨h.cap_pos, h.buffer_lt, h.published_le, ?_, ?_, ?_, ?_, fun i => ?_⟩
  · show 0 ≤ s.top + 1
    omega
  · show s.top + 1 ≤ s.limit
    omega
  · show s.limit - (s.top + 1) ≤ s.cur.cap
    omega
  · simp only [State.limit] at hlt
    cases hpc : s.owner with
    | idle | pushLoadBottom v | pushReturn | popLoadBottom | popReturn r =>
      simp only [OwnerOk]
    | pushLoadTop v b | popLoadBuffer b | popStoreBottom b buf | popLoadTop b buf =>
      simp only [OwnerOk, hpc] at hown ⊢
      exact hown
    | pushLoadBuffer v b t =>
      simp only [OwnerOk, hpc] at hown ⊢
      exact ⟨hown.1, hown.2.1, by omega, hown.2.2.2⟩
    | growGet v b t buf newBuf i | publish v b t buf newBuf =>
      simp only [OwnerOk, hpc] at hown ⊢
      exact hown.mono (by simp only; omega) ⟨rfl, rfl, rfl, rfl⟩
    | growPut v b t buf newBuf i x =>
      simp only [OwnerOk, hpc] at hown ⊢
      exact ⟨hown.1.mono (by simp only; omega) ⟨rfl, rfl, rfl, rfl⟩, hown.2⟩
    | pushPut v b buf =>
      simp only [OwnerOk, hpc] at hown ⊢
      refine ⟨hown.1, hown.2.1, ?_⟩
      show b - (s.top + 1) < s.cur.cap
      omega
    | pushStoreBottom v b =>
      simp only [OwnerOk, hpc] at hown ⊢
      refine ⟨hown.1, hown.2.1, ?_⟩
      show b - (s.top + 1) < s.cur.cap
      omega
    | popGet b buf t =>
      simp only [OwnerOk, hpc] at hown ⊢
      exact ⟨hown.1, hown.2.1, by omega, hown.2.2.2⟩
    | popCas t x =>
      simp only [OwnerOk, hpc] at hown ⊢
      exact ⟨hown.1, by omega, hown.2.2⟩
    | popRestore t r | popEmpty t =>
      simp only [OwnerOk, hpc] at hown hlt
      omega
  · refine (h.thief_ok i).of_top_lt ?_ (le_refl _)
    show s.top < s.top + 1
    omega

/-- `limit` is never below `bottom_`. -/
theorem bottom_le_limit (s : State T Thief) : s.bottom ≤ s.limit := by
  unfold State.limit
  split <;> (try split) <;> omega

/-- Every atomic access of a thief keeps the invariant. -/
theorem Inv.thiefStep [DecidableEq Thief] {s s' : State T Thief} (h : Inv s) {i : Thief}
    (hs : thiefStep s i = some s') : Inv s' := by
  have hok := h.thief_ok i
  cases hpc : s.thief i with
  | idle | stealReturn r => simp [WorkStealingDeque.thiefStep, hpc] at hs
  | loadTop =>
    simp only [WorkStealingDeque.thiefStep, hpc, Option.some.injEq] at hs
    subst hs
    exact h.setThief (le_refl s.top)
  | loadBottom t =>
    rw [hpc] at hok
    simp only [WorkStealingDeque.thiefStep, hpc] at hs
    split at hs
    · next hlt =>
      cases hs
      refine h.setThief ⟨hok, fun _ => ?_⟩
      exact lt_of_lt_of_le hlt (bottom_le_limit s)
    · cases hs
      exact h.setThief trivial
  | loadBuffer t =>
    rw [hpc] at hok
    simp only [WorkStealingDeque.thiefStep, hpc, Option.some.injEq] at hs
    subst hs
    exact h.setThief ⟨hok.1, h.buffer_lt, fun heq => ⟨hok.2 heq, rfl⟩⟩
  | getSlot t buf =>
    rw [hpc] at hok
    simp only [WorkStealingDeque.thiefStep, hpc, Option.some.injEq] at hs
    subst hs
    exact h.setThief ⟨hok.1, fun heq => hok.2.2 heq⟩
  | cas t x =>
    rw [hpc] at hok
    simp only [WorkStealingDeque.thiefStep, hpc] at hs
    split at hs
    · next heq =>
      cases hs
      subst heq
      exact (h.advanceTop (hok.2 rfl).1).setThief trivial
    · cases hs
      exact h.setThief trivial

/-! ### The whole system -/

theorem inv_initial [Inhabited T] {capacity : Int} (hcap : 1 ≤ capacity) :
    Inv (initial capacity : State T Thief) where
  cap_pos := fun _ _ => by simp [initial]; omega
  buffer_lt := by simp [initial, State.published]
  published_le := by simp [initial, State.published]
  top_nonneg := by simp [initial]
  top_le := by simp [initial, State.limit]
  fits := by simp [initial, State.limit, State.cur]; omega
  owner_ok := trivial
  thief_ok := fun _ => trivial

/-- A call or a return of the owner changes neither memory nor `limit`. -/
theorem Inv.callReturn {s : State T Thief} (h : Inv s) {pc : OwnerPC T}
    (hfrom : s.owner = .idle ∨ s.owner = .pushReturn ∨ ∃ r, s.owner = .popReturn r)
    (hto : pc = .idle ∨ (∃ v, pc = .pushLoadBottom v) ∨ pc = .popLoadBottom) :
    Inv ({ s with owner := pc } : State T Thief) := by
  have hlimit : s.limit = s.bottom := by
    rcases hfrom with hpc | hpc | ⟨r, hpc⟩ <;> simp [State.limit, hpc]
  have hpub : s.published = s.fresh := by
    rcases hfrom with hpc | hpc | ⟨r, hpc⟩ <;> simp [State.published, hpc]
  rcases hto with rfl | ⟨v, rfl⟩ | rfl <;>
    exact h.moveOwner (by rw [hpub]; rfl) (by rw [hlimit]; rfl) trivial

variable [Inhabited T] [DecidableEq T] [DecidableEq Thief]

/-- Every step keeps the invariant. -/
theorem inv_step {s s' : State T Thief} {l : Label T Thief} (h : Inv s)
    (hs : next s l = some s') : Inv s' := by
  cases l with
  | callPush v =>
    simp only [next, Option.ite_none_right_eq_some, Option.some.injEq] at hs
    obtain ⟨hpc, rfl⟩ := hs
    exact h.callReturn (.inl hpc) (.inr (.inl ⟨v, rfl⟩))
  | retPush =>
    simp only [next, Option.ite_none_right_eq_some, Option.some.injEq] at hs
    obtain ⟨hpc, rfl⟩ := hs
    exact h.callReturn (.inr (.inl hpc)) (.inl rfl)
  | callPop =>
    simp only [next, Option.ite_none_right_eq_some, Option.some.injEq] at hs
    obtain ⟨hpc, rfl⟩ := hs
    exact h.callReturn (.inl hpc) (.inr (.inr rfl))
  | retPop r =>
    simp only [next, Option.ite_none_right_eq_some, Option.some.injEq] at hs
    obtain ⟨hpc, rfl⟩ := hs
    exact h.callReturn (.inr (.inr ⟨r, hpc⟩)) (.inl rfl)
  | callSteal i =>
    simp only [next, Option.ite_none_right_eq_some, Option.some.injEq] at hs
    obtain ⟨-, rfl⟩ := hs
    exact h.setThief trivial
  | retSteal i r =>
    simp only [next, Option.ite_none_right_eq_some, Option.some.injEq] at hs
    obtain ⟨-, rfl⟩ := hs
    exact h.setThief trivial
  | owner => exact h.ownerStep hs
  | thief i => exact h.thiefStep hs

/-- The invariant holds in every reachable state. -/
theorem inv_run {capacity : Int} (hcap : 1 ≤ capacity) {tr : List (Label T Thief)}
    {s : State T Thief} (hrun : (system T Thief capacity).Run tr s) : Inv s := by
  refine hrun.invariant (P := Inv) ?_ fun _ _ _ h hs => inv_step h hs
  rintro s rfl
  exact inv_initial hcap

end Forge.WorkStealingDeque
