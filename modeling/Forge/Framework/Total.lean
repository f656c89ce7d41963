import Mathlib.Algebra.Order.BigOperators.Group.Finset
import Mathlib.Data.Fintype.Basic
import Mathlib.Logic.Hydra
import Mathlib.Tactic.Abel

/-! # Totals over a Family of Holders

  A finite family of holders, each of which holds an amount. Changing one
  holder trades its old amount for its new one. The family is a function
  (`total`) or a list (`listTotal`).
-/

namespace LTS

variable {ι α M M' : Type*} [Fintype ι] [AddCommMonoid M]

/-- What all holders hold together. -/
def total (amount : α → M) (f : ι → α) : M := ∑ i, amount (f i)

/-- Changing one holder trades its old amount for the new one. -/
theorem total_update [DecidableEq ι] (amount : α → M) (f : ι → α) (i : ι) (x : α) :
    total amount (Function.update f i x) + amount (f i) = total amount f + amount x := by
  have hrest : ∑ j ∈ Finset.univ.erase i, amount (Function.update f i x j)
      = ∑ j ∈ Finset.univ.erase i, amount (f j) := by
    apply Finset.sum_congr rfl
    intro j hj
    rw [Function.update_of_ne (Finset.ne_of_mem_erase hj)]
  unfold total
  rw [← Finset.add_sum_erase _ _ (Finset.mem_univ i),
    ← Finset.add_sum_erase _ (fun j => amount (f j)) (Finset.mem_univ i),
    hrest, Function.update_self]
  abel

theorem total_eq_zero (amount : α → M) {f : ι → α} (h : ∀ i, amount (f i) = 0) :
    total amount f = 0 :=
  Finset.sum_eq_zero fun i _ => h i

theorem le_total (amount : α → ℕ) (f : ι → α) (i : ι) : amount (f i) ≤ total amount f :=
  Finset.single_le_sum (f := fun j => amount (f j)) (fun _ _ => Nat.zero_le _) (Finset.mem_univ i)

/-! ### Lists of Holders -/

/-- What the holders of a list hold together. -/
def listTotal (amount : α → M) (l : List α) : M := (l.map amount).sum

/-- Changing one holder trades its old amount for the new one. -/
theorem listTotal_set (amount : α → M) {l : List α} {i : ℕ} {x : α} (hx : l[i]? = some x) (y : α) :
    listTotal amount (l.set i y) + amount x = listTotal amount l + amount y := by
  induction l generalizing i with
  | nil => simp at hx
  | cons z l ih =>
    cases i with
    | zero =>
      simp only [List.getElem?_cons_zero, Option.some.injEq] at hx
      subst hx
      simp only [listTotal, List.set_cons_zero, List.map_cons, List.sum_cons]
      abel
    | succ i =>
      simp only [List.getElem?_cons_succ] at hx
      have hrest := ih hx
      simp only [listTotal, List.set_cons_succ, List.map_cons, List.sum_cons] at hrest ⊢
      rw [add_assoc, hrest, add_assoc]

theorem listTotal_eq_zero (amount : α → M) {l : List α} (h : ∀ x ∈ l, amount x = 0) :
    listTotal amount l = 0 := by
  apply List.sum_eq_zero
  intro m hm
  obtain ⟨x, hx, rfl⟩ := List.mem_map.mp hm
  exact h x hx

/-- A part of what all hold is what all hold of that part. -/
theorem map_listTotal {N : Type*} [AddCommMonoid N] (f : M →+ N) (amount : α → M) (l : List α) :
    f (listTotal amount l) = listTotal (fun x => f (amount x)) l := by
  simp [listTotal, map_list_sum, Function.comp_def]

/-- The same for holders that stand beside the entries of another list. -/
theorem listTotal_zip_set {β : Type*} (amount : β × α → M) {k : List β} {l : List α} {i : ℕ}
    {b : β} {x : α} (hb : k[i]? = some b) (hx : l[i]? = some x) (y : α) :
    listTotal amount (k.zip (l.set i y)) + amount (b, x) =
      listTotal amount (k.zip l) + amount (b, y) := by
  have hset : k.zip (l.set i y) = (k.zip l).set i (b, y) := by
    apply List.ext_getElem?
    intro j
    by_cases hij : i = j
    · subst hij
      have hk := (List.getElem?_eq_some_iff.mp hb).1
      have hl := (List.getElem?_eq_some_iff.mp hx).1
      rw [List.getElem?_set_self (by simpa using ⟨hk, hl⟩), List.getElem?_zip_eq_some]
      exact ⟨hb, List.getElem?_set_self hl⟩
    · simp only [List.getElem?_set_ne hij, List.zip, List.getElem?_zipWith]
  rw [hset]
  exact listTotal_set amount (List.getElem?_zip_eq_some.mpr ⟨hb, hx⟩) (b, y)

/-- A family of ranks goes down when one member does. -/
theorem cutExpand_set {r : M' → M' → Prop} (rank : α → M') {l : List α} {i : ℕ} {x y : α}
    (hx : l[i]? = some x) (hlt : r (rank y) (rank x)) :
    Relation.CutExpand r (listTotal (fun z => {rank z}) (l.set i y) : Multiset M')
      (listTotal (fun z => {rank z}) l) := by
  refine ⟨{rank y}, rank x, ?_, listTotal_set (fun z => {rank z}) hx y⟩
  simpa using hlt

/-- Holders that hold one thing at most. -/
theorem listTotal_le_length {amount : α → ℕ} (h : ∀ x, amount x ≤ 1) (l : List α) :
    listTotal amount l ≤ l.length := by
  induction l with
  | nil => exact le_rfl
  | cons x l ih =>
    have hx := h x
    simp only [listTotal, List.map_cons, List.sum_cons, List.length_cons] at ih ⊢
    omega

end LTS
