import Mathlib.Algebra.GroupWithZero.Nat
import Mathlib.Algebra.Order.BigOperators.Group.Finset
import Mathlib.Data.Finmap

/-! # The Striped Map

  `ConcurrentMap<K, V, NumStripes>` (`core/concurrent_map.h`): a key lives
  in the stripe its hash names, and every stripe is an `std::unordered_map`
  under a lock of its own. An operation on one key is one step under the
  lock of its stripe. `size` and `keys` take the locks one after another,
  so that a caller goes through `sizeAt` and `keysAt` stripe by stripe.

  The order in which an `std::unordered_map` lists its keys is not
  specified; here it is the order of the association list.
-/

namespace Forge

/-- The stripes; every key is in the stripe its hash names. -/
structure ConcurrentMap (K V : Type*) (hash : K → ℕ) (numStripes : ℕ) [NeZero numStripes] where
  stripes : Fin numStripes → AList fun _ : K => V
  placed : ∀ j k, k ∈ stripes j → j = Fin.ofNat numStripes (hash k)

namespace ConcurrentMap

variable {K V : Type*} {hash : K → ℕ} {numStripes : ℕ} [NeZero numStripes]

/-- `std::hash<K>{}(key) % NumStripes`. -/
def stripeOf (hash : K → ℕ) (numStripes : ℕ) [NeZero numStripes] (key : K) : Fin numStripes :=
  Fin.ofNat numStripes (hash key)

def empty : ConcurrentMap K V hash numStripes where
  stripes := fun _ => ∅
  placed := fun _ k hk => absurd hk (AList.notMem_empty k)

/-- The keys in stripe `j`. -/
def keysAt (m : ConcurrentMap K V hash numStripes) (j : ℕ) : List K :=
  if h : j < numStripes then (m.stripes ⟨j, h⟩).keys else []

/-- The size of stripe `j`. -/
def sizeAt (m : ConcurrentMap K V hash numStripes) (j : ℕ) : ℕ := (m.keysAt j).length

/-- The number of keys stored at this moment, in the stripes before `j`. -/
def storedBefore (m : ConcurrentMap K V hash numStripes) (j : ℕ) : ℕ :=
  ∑ i ∈ Finset.range j, m.sizeAt i

/-- The number of keys stored at this moment. -/
def stored (m : ConcurrentMap K V hash numStripes) : ℕ := m.storedBefore numStripes

theorem keysAt_nodup {m : ConcurrentMap K V hash numStripes} (j : ℕ) : (m.keysAt j).Nodup := by
  unfold keysAt
  split
  · exact AList.keys_nodup _
  · exact List.nodup_nil

variable [DecidableEq K]

/-- Replace the stripe of `key`. -/
def setStripe (m : ConcurrentMap K V hash numStripes) (key : K) (stripe : AList fun _ : K => V)
    (hkeys : ∀ k, k ∈ stripe → k = key ∨ k ∈ m.stripes (stripeOf hash numStripes key)) :
    ConcurrentMap K V hash numStripes where
  stripes := Function.update m.stripes (stripeOf hash numStripes key) stripe
  placed := by
    intro j k hk
    by_cases hj : j = stripeOf hash numStripes key
    · subst hj
      rw [Function.update_self] at hk
      rcases hkeys k hk with rfl | hk
      · rfl
      · exact m.placed _ k hk
    · rw [Function.update_of_ne hj] at hk
      exact m.placed j k hk

/-- The update under the lock of the stripe: `it->second = value` or
    `emplace(key, value)`. -/
def set (m : ConcurrentMap K V hash numStripes) (key : K) (value : V) :
    ConcurrentMap K V hash numStripes :=
  m.setStripe key ((m.stripes (stripeOf hash numStripes key)).insert key value)
    fun _ hk => (AList.mem_insert _).mp hk

/-- Find a value by key. -/
def find (m : ConcurrentMap K V hash numStripes) (key : K) : Option V :=
  (m.stripes (stripeOf hash numStripes key)).lookup key

/-- Erase a key; whether it existed is `(m.find key).isSome`. -/
def erase (m : ConcurrentMap K V hash numStripes) (key : K) : ConcurrentMap K V hash numStripes :=
  m.setStripe key ((m.stripes (stripeOf hash numStripes key)).erase key)
    fun _ hk => .inr (AList.mem_erase.mp hk).2

variable {m : ConcurrentMap K V hash numStripes} {key key' : K} {value : V}

/-! ### One Key -/

@[simp] theorem find_empty : (empty : ConcurrentMap K V hash numStripes).find key = none := rfl

@[simp] theorem find_set_self : (m.set key value).find key = some value := by
  simp [find, set, setStripe]

theorem find_set_of_ne (hne : key' ≠ key) : (m.set key value).find key' = m.find key' := by
  unfold find set setStripe
  by_cases hj : stripeOf hash numStripes key' = stripeOf hash numStripes key
  · simp only [hj, Function.update_self]
    exact AList.lookup_insert_ne hne
  · simp only [Function.update_of_ne hj]

@[simp] theorem find_erase_self : (m.erase key).find key = none := by
  simp [find, erase, setStripe]

theorem find_erase_of_ne (hne : key' ≠ key) : (m.erase key).find key' = m.find key' := by
  unfold find erase setStripe
  by_cases hj : stripeOf hash numStripes key' = stripeOf hash numStripes key
  · simp only [hj, Function.update_self]
    exact AList.lookup_erase_ne hne
  · simp only [Function.update_of_ne hj]

/-! ### Listing and Counting -/

/-- A stripe lists the keys stored that belong to it. -/
theorem mem_keysAt {j : ℕ} :
    key ∈ m.keysAt j ↔ j = stripeOf hash numStripes key ∧ (m.find key).isSome := by
  unfold keysAt find
  constructor
  · intro hmem
    split at hmem
    · next hj =>
      have hplaced : (⟨j, hj⟩ : Fin numStripes) = stripeOf hash numStripes key :=
        m.placed _ _ hmem
      refine ⟨congrArg Fin.val hplaced, ?_⟩
      rw [AList.lookup_isSome, ← hplaced]
      exact hmem
    · cases hmem
  · rintro ⟨hj, hfind⟩
    subst hj
    rw [dif_pos (Fin.is_lt _)]
    exact AList.lookup_isSome.mp hfind

/-- Erasing shrinks stripes only. -/
theorem sizeAt_erase_le (m : ConcurrentMap K V hash numStripes) (key : K) (j : ℕ) :
    (m.erase key).sizeAt j ≤ m.sizeAt j := by
  apply List.Subperm.length_le
  apply List.Nodup.subperm (keysAt_nodup j)
  intro k hk
  rw [mem_keysAt] at hk ⊢
  refine ⟨hk.1, ?_⟩
  by_cases hne : k = key
  · subst hne
    simp at hk
  · rw [← find_erase_of_ne hne]
    exact hk.2

/-- A stripe a new key does not belong to stays as it is. -/
theorem keysAt_set_of_ne {j : ℕ} (hj : j ≠ stripeOf hash numStripes key) :
    (m.set key value).keysAt j = m.keysAt j := by
  unfold keysAt set setStripe
  by_cases hlt : j < numStripes
  · have hne : (⟨j, hlt⟩ : Fin numStripes) ≠ stripeOf hash numStripes key :=
      fun heq => hj (congrArg Fin.val heq)
    simp only [dif_pos hlt, Function.update_of_ne hne]
  · simp only [dif_neg hlt]

/-- A new key makes its stripe larger by one. -/
theorem sizeAt_set_self (hnew : m.find key = none) :
    (m.set key value).sizeAt (stripeOf hash numStripes key) =
      m.sizeAt (stripeOf hash numStripes key) + 1 := by
  have hmem : key ∉ m.stripes (stripeOf hash numStripes key) := AList.lookup_eq_none.mp hnew
  unfold sizeAt keysAt set setStripe
  simp only [dif_pos (Fin.is_lt _), Fin.eta, Function.update_self, AList.keys_insert,
    List.length_cons]
  rw [List.erase_of_not_mem hmem]

omit [DecidableEq K] in
@[simp] theorem stored_empty : (empty : ConcurrentMap K V hash numStripes).stored = 0 := by
  unfold stored storedBefore
  apply Finset.sum_eq_zero
  intro j _
  simp [sizeAt, keysAt, empty]

theorem stored_erase_le (m : ConcurrentMap K V hash numStripes) (key : K) (j : ℕ) :
    (m.erase key).storedBefore j ≤ m.storedBefore j :=
  Finset.sum_le_sum fun i _ => m.sizeAt_erase_le key i

/-- A new key makes the map larger by one. -/
theorem stored_set (hnew : m.find key = none) : (m.set key value).stored = m.stored + 1 := by
  have hmem : (stripeOf hash numStripes key : ℕ) ∈ Finset.range numStripes := by simp
  unfold stored storedBefore
  rw [← Finset.add_sum_erase _ _ hmem, ← Finset.add_sum_erase _ m.sizeAt hmem,
    sizeAt_set_self hnew]
  have hrest : ∑ i ∈ (Finset.range numStripes).erase (stripeOf hash numStripes key : ℕ),
      (m.set key value).sizeAt i =
      ∑ i ∈ (Finset.range numStripes).erase (stripeOf hash numStripes key : ℕ), m.sizeAt i := by
    apply Finset.sum_congr rfl
    intro i hi
    unfold sizeAt
    rw [keysAt_set_of_ne (Finset.ne_of_mem_erase hi)]
  omega

/-! ### The map as a whole -/

/-- The union of the stripes in `l`. -/
def union (m : ConcurrentMap K V hash numStripes) (l : List (Fin numStripes)) :
    Finmap fun _ : K => V :=
  l.foldr (fun j rest => (m.stripes j).toFinmap ∪ rest) ∅

/-- The one finite map the stripes make up. -/
def whole (m : ConcurrentMap K V hash numStripes) : Finmap fun _ : K => V :=
  m.union (List.finRange numStripes)

/-- A key is looked up in its own stripe only. -/
theorem lookup_union (m : ConcurrentMap K V hash numStripes) (l : List (Fin numStripes)) (key : K) :
    (m.union l).lookup key = if stripeOf hash numStripes key ∈ l then m.find key else none := by
  induction l with
  | nil => rfl
  | cons j l ih =>
    show ((m.stripes j).toFinmap ∪ m.union l).lookup key = _
    by_cases hmem : key ∈ m.stripes j
    · have hj : j = stripeOf hash numStripes key := m.placed j key hmem
      rw [Finmap.lookup_union_left (Finmap.mem_toFinmap.mpr hmem), Finmap.lookup_toFinmap, if_pos]
      · rw [find, ← hj]
      · rw [← hj]
        exact List.mem_cons_self
    · rw [Finmap.lookup_union_right (fun h => hmem (Finmap.mem_toFinmap.mp h)), ih]
      by_cases hj : stripeOf hash numStripes key = j
      · -- its own stripe does not hold it, so that no other one does
        have hnone : m.find key = none := by
          rw [find, hj]
          exact AList.lookup_eq_none.mpr hmem
        simp [hnone]
      · simp [hj]

@[simp] theorem lookup_whole (m : ConcurrentMap K V hash numStripes) (key : K) :
    m.whole.lookup key = m.find key := by
  rw [whole, lookup_union, if_pos (List.mem_finRange _)]

@[simp] theorem whole_empty : (empty : ConcurrentMap K V hash numStripes).whole = ∅ :=
  Finmap.ext_lookup fun _ => by simp

@[simp] theorem whole_set : (m.set key value).whole = m.whole.insert key value := by
  apply Finmap.ext_lookup
  intro k
  by_cases hk : k = key
  · subst hk
    simp
  · simp [find_set_of_ne hk, Finmap.lookup_insert_of_ne _ hk]

@[simp] theorem whole_erase : (m.erase key).whole = m.whole.erase key := by
  apply Finmap.ext_lookup
  intro k
  by_cases hk : k = key
  · subst hk
    simp
  · simp [find_erase_of_ne hk, Finmap.lookup_erase_ne hk]

theorem mem_keys_whole : key ∈ m.whole.keys ↔ (m.find key).isSome := by
  rw [Finmap.mem_keys, ← Finmap.lookup_isSome, lookup_whole]

end ConcurrentMap

end Forge
