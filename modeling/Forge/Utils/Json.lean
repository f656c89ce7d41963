import Mathlib.Data.Rat.Floor
import Mathlib.Data.Int.Init

/-! # JSON Values

  The values of the JSON library and the accessors the workflows use. An
  accessor that throws returns `none`. Parsing is the library's: the
  workflows take it as a parameter.
-/

namespace Forge

/-- A JSON value; a floating-point number is the rational it denotes. -/
inductive Json where
  | null
  | bool (b : Bool)
  | int (i : ℤ)
  | float (q : ℚ)
  | string (s : String)
  | array (xs : List Json)
  | object (fields : List (String × Json))

namespace Json

/-- `j[key]` of an object. -/
def field? : Json → String → Option Json
  | .object fields, key => (fields.find? (·.1 = key)).map (·.2)
  | _, _ => none

/-- `static_cast<int>`. -/
def toInt32 (i : ℤ) : ℤ := i.bmod (2 ^ 32)

/-- The values of an `int`. -/
def IsInt32 (i : ℤ) : Prop := -2 ^ 31 ≤ i ∧ i < 2 ^ 31

instance (i : ℤ) : Decidable (IsInt32 i) := inferInstanceAs (Decidable (_ ∧ _))

theorem isInt32_toInt32 (i : ℤ) : IsInt32 (toInt32 i) := by
  have hlow := @Int.le_bmod i (2 ^ 32) (by decide)
  have hhigh := @Int.bmod_lt i (2 ^ 32) (by decide)
  unfold IsInt32 toInt32
  omega

theorem toInt32_eq_iff {i : ℤ} : toInt32 i = i ↔ IsInt32 i := by
  constructor
  · intro h
    rw [← h]
    exact isInt32_toInt32 i
  · rintro ⟨hlow, hhigh⟩
    unfold toInt32
    rw [Int.bmod_eq_of_le] <;> omega

theorem toInt32_toInt32_add (i j : ℤ) : toInt32 (toInt32 i + j) = toInt32 (i + j) :=
  Int.bmod_add_bmod

theorem toInt32_of_lt {n : ℕ} (hlt : n < 2 ^ 31) : toInt32 n = n :=
  toInt32_eq_iff.mpr ⟨by omega, by omega⟩

/-- `get<int>()`: numbers and booleans are converted, the rest throws. -/
def getInt : Json → Option ℤ
  | .int i => some (toInt32 i)
  | .float q => some (toInt32 (if 0 ≤ q then ⌊q⌋ else ⌈q⌉))
  | .bool b => some (if b then 1 else 0)
  | _ => none

/-- The integer of a number or a boolean, however large it is. -/
def integer : Json → Option ℤ
  | .int i => some i
  | .float q => some (if 0 ≤ q then ⌊q⌋ else ⌈q⌉)
  | .bool b => some (if b then 1 else 0)
  | _ => none

/-- `get<int>()` gives the integer of the value, narrowed to an `int`. -/
theorem getInt_eq (j : Json) : j.getInt = j.integer.map toInt32 := by
  cases j with
  | bool b => cases b <;> rfl
  | _ => rfl

/-- `get<std::string>()`. -/
def getString : Json → Option String
  | .string s => some s
  | _ => none

/-- `value(key, default)`: throws on anything but an object, and when the
    key is there with a value of the wrong type. -/
def value {α : Type} (get : Json → Option α) (j : Json) (key : String) (default : α) : Option α :=
  match j with
  | .object _ =>
      match j.field? key with
      | some v => get v
      | none => some default
  | _ => none

end Json

end Forge
