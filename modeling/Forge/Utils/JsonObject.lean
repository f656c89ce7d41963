import Forge.Utils.Json

/-! # JSON Objects

  How an object is written and read, besides the accessors of `Json`. The
  library keeps the fields of an object sorted by their keys (`std::map`):

  - `insertField`: `j[key] = v`;
  - `ofPairs`: the object of an initializer list;
  - `field?_insertField_self`, `field?_insertField_of_ne`: what is read
    after a field has been written.
-/

namespace Forge

namespace Json

/-- `j[key] = v` on the fields of an object. -/
def insertField (key : String) (v : Json) : List (String × Json) → List (String × Json)
  | [] => [(key, v)]
  | f :: fields =>
      if f.1 = key then (key, v) :: fields
      else if key < f.1 then (key, v) :: f :: fields
      else f :: insertField key v fields

/-- The object of an initializer list of pairs with different keys. -/
def ofPairs (pairs : List (String × Json)) : Json :=
  .object (pairs.foldl (fun fields f => insertField f.1 f.2 fields) [])

def isNull : Json → Bool
  | .null => true
  | _ => false

/-- What a range-based `for` goes through: the elements of an array, the
    values of an object, and any other value but null itself. -/
def items : Json → List Json
  | .null => []
  | .array xs => xs
  | .object fields => fields.map (·.2)
  | j => [j]

variable {key key' : String} {v : Json} {fields : List (String × Json)}

theorem field?_object :
    (Json.object fields).field? key = (fields.find? (·.1 = key)).map (·.2) := rfl

@[simp] theorem field?_nil : (Json.object []).field? key = none := rfl

/-- The field that has been written. -/
@[simp] theorem field?_insertField_self :
    (Json.object (insertField key v fields)).field? key = some v := by
  simp only [field?_object]
  induction fields with
  | nil => simp [insertField]
  | cons f fields ih =>
    unfold insertField
    split
    · simp
    · next hne =>
      split
      · simp
      · simpa [List.find?_cons, hne] using ih

/-- Another field. -/
theorem field?_insertField_of_ne (hne : key' ≠ key) :
    (Json.object (insertField key v fields)).field? key' = (Json.object fields).field? key' := by
  simp only [field?_object]
  induction fields with
  | nil => simp [insertField, hne.symm]
  | cons f fields ih =>
    unfold insertField
    split
    · next heq => simp [heq, hne.symm]
    · split
      · simp [List.find?_cons, hne.symm]
      · by_cases hf : f.1 = key'
        · simp [hf]
        · simpa [List.find?_cons, hf] using ih

end Json

end Forge
