import Forge.Utils.JsonText
import Mathlib.Data.List.Induction
import Mathlib.Tactic.IntervalCases

/-! # The Length of a JSON Text

  How long a text of a value is at least: every string takes its characters
  and two quotation marks, and every whole number its digits. A text that
  is no longer escapes nothing.

  - `Fits.of_derives`: the bound, and what a text that reaches it is like;
  - `isNatural_toDigits`: a number as it is printed.
-/

namespace Forge

namespace JsonText

/-! ### Printed Numbers -/

theorem natural_toDigits (n : ℕ) : natural (Nat.toDigits 10 n) = n :=
  Nat.ofDigitChars_ten_toDigits

theorem natural_lt {ds : List Char} (hds : ∀ d ∈ ds, d.isDigit) :
    natural ds < 10 ^ ds.length := by
  induction ds using List.reverseRecOn with
  | nil => decide
  | append_singleton ds d ih =>
    have hd := hds d (by simp)
    have hle : d.toNat ≤ 57 := by
      simp only [Char.isDigit, Bool.and_eq_true, decide_eq_true_eq] at hd
      exact UInt32.le_iff_toNat_le.mp hd.2
    have hzero : '0'.toNat = 48 := rfl
    have hlt := ih fun x hx => hds x (by simp [hx])
    have hlast : natural (ds ++ [d]) = 10 * natural ds + (d.toNat - '0'.toNat) := by
      simp [natural]
    rw [hlast, List.length_append, List.length_singleton, Nat.pow_succ]
    omega

/-- Only zero is printed with a zero in front. -/
theorem head_toDigits {n : ℕ} (h : (Nat.toDigits 10 n).head? = some '0') : n = 0 := by
  induction n using Nat.strongRecOn with
  | ind n ih =>
    by_cases hlt : n < 10
    · rw [Nat.toDigits_of_lt_base hlt, List.head?_cons, Option.some.injEq] at h
      revert h
      interval_cases n <;> decide
    · -- the first digit is that of the number without its last one
      rw [Nat.toDigits_of_base_le (by omega) (by omega),
        List.head?_append_of_ne_nil _ Nat.toDigits_ne_nil] at h
      have := ih (n / 10) (by omega) h
      omega

theorem isNatural_toDigits (n : ℕ) : IsNatural (Nat.toDigits 10 n) := by
  refine ⟨⟨Nat.toDigits_ne_nil, ?_⟩, ?_⟩
  · exact fun d hd => Nat.isDigit_of_mem_toDigits (by omega) (by omega) hd
  intro hhead
  rw [head_toDigits hhead]
  rfl

/-- No text of a number is shorter than what is printed. -/
theorem length_toDigits_le {ds : List Char} (hds : IsDigits ds) :
    (Nat.toDigits 10 (natural ds)).length ≤ ds.length := by
  have hpos : 0 < ds.length := List.length_pos_iff.mpr hds.1
  exact (Nat.length_toDigits_le_iff (by omega) hpos).mpr (natural_lt hds.2)

/-- A whole number as it is printed. -/
def writeInt : ℤ → List Char
  | .ofNat n => Nat.toDigits 10 n
  | .negSucc n => '-' :: Nat.toDigits 10 (n + 1)

@[simp] theorem writeInt_natCast (n : ℕ) : writeInt n = Nat.toDigits 10 n := rfl

theorem writeInt_neg {n : ℕ} (hpos : 0 < n) : writeInt (-n) = '-' :: Nat.toDigits 10 n := by
  cases n with
  | zero => omega
  | succ n => rfl

theorem numberText_writeInt (i : ℤ) : NumberText (writeInt i) (.int i) := by
  cases i with
  | ofNat n =>
    have h := @NumberText.int false _ (isNatural_toDigits n)
    rwa [natural_toDigits] at h
  | negSucc n =>
    have h := @NumberText.int true _ (isNatural_toDigits (n + 1))
    rwa [natural_toDigits] at h

mutual
/-- How long a text of the value is at least. -/
def width : Json → ℕ
  | .null | .bool true => 4
  | .bool false => 5
  | .int i => (writeInt i).length
  | .float _ => 1
  | .string s => s.length + 2
  | .array js => max 2 (itemsWidth js + 1)
  | .object fields => max 2 (membersWidth fields + 1)

/-- Each with a comma or a bracket behind it. -/
def itemsWidth : List Json → ℕ
  | [] => 0
  | j :: js => width j + 1 + itemsWidth js

def membersWidth : List (String × Json) → ℕ
  | [] => 0
  | (name, j) :: fields => name.length + 3 + width j + 1 + membersWidth fields
end

mutual
/-- The strings of a value, the names of members among them. -/
def strings : Json → List String
  | .string s => [s]
  | .array js => itemsStrings js
  | .object fields => membersStrings fields
  | _ => []

def itemsStrings : List Json → List String
  | [] => []
  | j :: js => strings j ++ itemsStrings js

def membersStrings : List (String × Json) → List String
  | [] => []
  | (name, j) :: fields => name :: strings j ++ membersStrings fields
end

/-- JSON writes the string as it stands. -/
def Plain (s : String) : Prop := ∀ c ∈ s.toList, isPlain c

instance (s : String) : Decidable (Plain s) := List.decidableBAll (isPlain ·) s.toList

/-- The text is long enough, and if it is no longer than it has to be,
    every string is plain. -/
def Fits (text : List Char) : Node → Prop
  | .value j | .item j =>
      width j ≤ text.length ∧ (text.length ≤ width j → ∀ s ∈ strings j, Plain s)
  | .items js =>
      2 ≤ itemsWidth js ∧ itemsWidth js ≤ text.length + 1 ∧
        (text.length + 1 ≤ itemsWidth js → ∀ s ∈ itemsStrings js, Plain s)
  | .member field =>
      membersWidth [field] ≤ text.length + 1 ∧
        (text.length + 1 ≤ membersWidth [field] → ∀ s ∈ membersStrings [field], Plain s)
  | .members fields =>
      2 ≤ membersWidth fields ∧ membersWidth fields ≤ text.length + 1 ∧
        (text.length + 1 ≤ membersWidth fields → ∀ s ∈ membersStrings fields, Plain s)

theorem NumberText.length_pos {text : List Char} {j : Json} (h : NumberText text j) :
    1 ≤ text.length := by
  have hds : ∀ {ds : List Char}, IsNatural ds → 1 ≤ ds.length := fun hds =>
    List.length_pos_iff.mpr hds.1.1
  cases h with
  | int hnat =>
    have := hds hnat
    simp only [List.length_append]
    omega
  | float hnat _ _ _ =>
    have := hds hnat
    simp only [List.length_append]
    omega

theorem NumberText.width_le {text : List Char} {j : Json} (h : NumberText text j) :
    width j ≤ text.length := by
  cases h with
  | @int negative ds hnat =>
    have hle := length_toDigits_le hnat.1
    cases negative with
    | false => simpa [width, sign] using hle
    | true =>
      simp only [width, sign, if_true, List.length_append, List.length_singleton]
      -- zero may be written with a sign, and is printed without
      rcases Nat.eq_zero_or_pos (natural ds) with hzero | hpos
      · rw [hzero] at hle ⊢
        exact Nat.le_add_left_of_le hle
      · rw [writeInt_neg hpos, List.length_cons]
        omega
  | float hnat hfraction hexponent hne =>
    exact (NumberText.float hnat hfraction hexponent hne).length_pos

theorem width_pos (j : Json) : 1 ≤ width j := by
  cases j with
  | int i =>
    show 1 ≤ (writeInt i).length
    exact (numberText_writeInt i).length_pos
  | bool b => cases b <;> simp [width]
  | string s => simp [width]
  | array js => exact Nat.le_trans (by decide) (Nat.le_max_left 2 (itemsWidth js + 1))
  | object fields => exact Nat.le_trans (by decide) (Nat.le_max_left 2 (membersWidth fields + 1))
  | null | float => simp [width]

theorem Decodes.eq_of_plain {raw s : List Char} (h : Decodes raw s)
    (hplain : ∀ c ∈ raw, isPlain c) : s = raw := by
  have hall : Decodes (raw ++ []) s := by rwa [List.append_nil]
  obtain ⟨s', hs, hnil⟩ := Decodes.of_plain_append hplain hall
  have hempty : s' = [] := List.eq_nil_of_length_eq_zero (Nat.le_zero.mp hnil.length_le)
  rw [hs, hempty, List.append_nil]

/-- Two strings that are read as they stand. -/
theorem Decodes.plain_ofList {raw s : List Char} (h : Decodes raw s)
    (hlen : raw.length ≤ s.length) : Plain (String.ofList s) := by
  have hplain := h.plain hlen
  intro c hc
  rw [String.toList_ofList, h.eq_of_plain hplain] at hc
  exact hplain c hc

theorem Fits.of_derives {text : List Char} {node : Node} (h : Derives Decodes Decodes text node) :
    Fits text node := by
  induction h with
  | null | false | true => exact ⟨by decide, by simp [strings]⟩
  | @number text j hnumber =>
    refine ⟨hnumber.width_le, ?_⟩
    cases hnumber <;> simp [strings]
  | @string raw s hraw =>
    have hle := hraw.length_le
    simp only [Fits, width, strings, String.length_ofList, List.length_append, List.length_cons,
      List.length_nil, List.mem_singleton]
    refine ⟨by omega, ?_⟩
    rintro hlen _ rfl
    exact hraw.plain_ofList (by omega)
  | noItems hw => exact ⟨by simp [width, itemsWidth], by simp [strings, itemsStrings]⟩
  | array _ ih =>
    obtain ⟨htwo, hle, hplain⟩ := ih
    simp only [Fits, width, strings, List.length_append, List.length_cons, List.length_nil]
    exact ⟨by omega, fun hlen => hplain (by omega)⟩
  | noMembers hw => exact ⟨by simp [width, membersWidth], by simp [strings, membersStrings]⟩
  | object _ ih =>
    obtain ⟨htwo, hle, hplain⟩ := ih
    simp only [Fits, width, strings, List.length_append, List.length_cons, List.length_nil]
    exact ⟨by omega, fun hlen => hplain (by omega)⟩
  | item _ _ _ ih =>
    obtain ⟨hle, hplain⟩ := ih
    simp only [Fits, List.length_append]
    exact ⟨by omega, fun hlen => hplain (by omega)⟩
  | @lastItem text j _ ih =>
    obtain ⟨hle, hplain⟩ := ih
    have hpos := width_pos j
    simp only [Fits, itemsWidth, itemsStrings, List.append_nil]
    exact ⟨by omega, by omega, fun hlen => hplain (by omega)⟩
  | @items text j text' js _ _ ih ih' =>
    obtain ⟨hle, hplain⟩ := ih
    obtain ⟨htwo, hle', hplain'⟩ := ih'
    simp only [Fits, itemsWidth, itemsStrings, List.length_append, List.length_cons,
      List.mem_append]
    refine ⟨by omega, by omega, ?_⟩
    -- as both parts are long enough, neither is longer
    rintro hlen s (hs | hs)
    · exact hplain (by omega) s hs
    · exact hplain' (by omega) s hs
  | @member w raw s w' text j _ hraw _ _ ih =>
    obtain ⟨hle, hplain⟩ := ih
    have hname := hraw.length_le
    simp only [Fits, membersWidth, membersStrings, String.length_ofList, List.length_append,
      List.length_cons, List.length_nil, List.append_nil, List.mem_cons]
    refine ⟨by omega, ?_⟩
    rintro hlen name (rfl | hs)
    · exact hraw.plain_ofList (by omega)
    · exact hplain (by omega) name hs
  | @lastMember text field _ ih =>
    obtain ⟨name, j⟩ := field
    have hpos := width_pos j
    obtain ⟨hle, hplain⟩ := ih
    exact ⟨by simp only [membersWidth]; omega, hle, hplain⟩
  | @members text field text' fields _ _ ih ih' =>
    obtain ⟨name, j⟩ := field
    obtain ⟨hle, hplain⟩ := ih
    obtain ⟨htwo, hle', hplain'⟩ := ih'
    simp only [membersWidth, membersStrings, List.append_nil] at hle hplain
    simp only [Fits, membersWidth, membersStrings, List.length_append, List.length_cons,
      List.cons_append, List.mem_cons, List.mem_append] at *
    refine ⟨by omega, by omega, ?_⟩
    rintro hlen s (rfl | hs | hs)
    · exact hplain (by omega) s (.inl rfl)
    · exact hplain (by omega) s (.inr hs)
    · exact hplain' (by omega) s hs

/-- **A document that is no longer than it has to be escapes nothing.** -/
theorem plain_of_document {text : String} {j : Json} (h : Document text j)
    (hlen : text.length ≤ width j) : ∀ s ∈ strings j, Plain s :=
  (Fits.of_derives h).2 hlen

end JsonText

end Forge
