import Forge.Workflow.MapReduce
import Forge.Workflow.PlanExecute

/-! # Entries of a Response

  `generate_plan` and `decompose` read the entries of a JSON array one at a
  time inside a `try` block, and append the whole response as one entry in
  its handler. The entries read before the exception stay in the vector:

  - `entries`: what the response should give, all entries or the response
    as one;
  - `readEntries_eq`: what the loop gives, up to the first bad entry;
  - `plan_entries_iff`: when the two are the same.
-/

namespace Forge

namespace Workflow

/-! ### What Is Expected -/

/-- The entry at position `i`, with the integer the document has for its
    `id`; `none` when it cannot be converted. -/
def entry (i : ℕ) (j : Json) : Option (ℤ × String) :=
  match j.value Json.integer "id" (i + 1), j.value Json.getString "description" "" with
  | some id, some description => some (id, description)
  | _, _ => none

/-- All entries from position `i` on; `none` when one of them cannot be
    converted. -/
def entriesFrom (i : ℕ) : List Json → Option (List (ℤ × String))
  | [] => some []
  | j :: js =>
      match entry i j, entriesFrom (i + 1) js with
      | some e, some es => some (e :: es)
      | _, _ => none

/-- The array under `key`. -/
def arrayOf (j : Json) (key : String) : Option (List Json) :=
  match j.field? key with
  | some (.array xs) => some xs
  | _ => none

/-- The entries of a response: all of the array, or the response as one. -/
def entries (parse : String → Option Json) (key content : String) : List (ℤ × String) :=
  match parse content with
  | none => [(1, content)]
  | some j =>
      match arrayOf j key with
      | none => []
      | some xs =>
          match entriesFrom 0 xs with
          | some es => es
          | none => [(1, content)]

/-! ### What the Loop Reads -/

/-- The loop narrows the `id`, or the position, to an `int`. -/
theorem readEntry_eq (i : ℕ) (j : Json) :
    readEntry i j = (entry i j).map fun e => (Json.toInt32 e.1, e.2) := by
  cases j with
  | object fields =>
    unfold readEntry entry
    generalize Json.value Json.getString (.object fields) "description" "" = description
    simp only [Json.value]
    cases hid : (Json.object fields).field? "id" with
    | none => cases description <;> rfl
    | some v =>
      simp only [Json.getInt_eq]
      cases v.integer <;> cases description <;> rfl
  | _ => rfl

theorem readEntry_eq_none_iff (i : ℕ) (j : Json) : readEntry i j = none ↔ entry i j = none := by
  rw [readEntry_eq, Option.map_eq_none_iff]

/-- The entry that is read is the one expected if and only if an `int`
    holds its `id`. -/
theorem readEntry_eq_iff {i : ℕ} {j : Json} {e : ℤ × String} (he : entry i j = some e) :
    readEntry i j = some e ↔ Json.IsInt32 e.1 := by
  rw [readEntry_eq, he, Option.map_some, Option.some.injEq, ← Json.toInt32_eq_iff]
  exact ⟨fun heq => congrArg Prod.fst heq, fun hid => Prod.ext hid rfl⟩

/-- Every entry is there, with an `id`, or a position, that an `int`
    holds. -/
def AllRead (i : ℕ) (js : List Json) : Prop :=
  ∀ (k : ℕ) (j : Json), js[k]? = some j → ∃ e, entry (i + k) j = some e ∧ Json.IsInt32 e.1

theorem allRead_cons {i : ℕ} {j : Json} {js : List Json} :
    AllRead i (j :: js) ↔ (∃ e, entry i j = some e ∧ Json.IsInt32 e.1) ∧ AllRead (i + 1) js := by
  constructor
  · intro h
    refine ⟨h 0 j rfl, fun k j' hk => ?_⟩
    have hnext := h (k + 1) j' hk
    rwa [← Nat.add_assoc, Nat.add_right_comm] at hnext
  · rintro ⟨hfirst, hrest⟩ k j' hk
    cases k with
    | zero =>
      obtain rfl : j = j' := Option.some.inj hk
      exact hfirst
    | succ k =>
      have hnext := hrest k j' hk
      rwa [Nat.add_right_comm, Nat.add_assoc] at hnext

theorem prefix_readEntries (content : String) (js : List Json) (read : List (ℤ × String)) :
    read <+: readEntries content js read := by
  induction js generalizing read with
  | nil => exact List.prefix_rfl
  | cons j js ih =>
    unfold readEntries
    split
    · exact (List.prefix_append _ _).trans (ih _)
    · exact List.prefix_append _ _

/-- **The loop over good entries** gives them as they are expected if and
    only if an `int` holds every `id`. -/
theorem readEntries_of_some (content : String) {js : List Json} {read es : List (ℤ × String)}
    (hes : entriesFrom read.length js = some es) :
    readEntries content js read = read ++ es ↔ AllRead read.length js := by
  induction js generalizing read es with
  | nil =>
    cases hes
    simp [readEntries, AllRead]
  | cons j js ih =>
    simp only [entriesFrom] at hes
    split at hes
    case h_2 => cases hes
    case h_1 e es' he hes' =>
      cases hes
      -- the loop reads it, with an `id` that may be another
      obtain ⟨e', he'⟩ : ∃ e', readEntry read.length j = some e' := by
        rw [readEntry_eq, he]
        exact ⟨_, rfl⟩
      have hnext : entriesFrom (read ++ [e']).length js = some es' := by simpa using hes'
      have hrest := ih hnext
      rw [List.length_append, List.length_singleton] at hrest
      rw [readEntries, he', allRead_cons, ← hrest, he]
      simp only [Option.some.injEq, exists_eq_left', ← readEntry_eq_iff he, he']
      -- the entry just read stays where it is
      have hpre := prefix_readEntries content js (read ++ [e'])
      constructor
      · intro heq
        rw [heq, List.prefix_append_right_inj] at hpre
        obtain rfl : e' = e := by simpa using hpre
        exact ⟨rfl, by rw [heq]; simp⟩
      · rintro ⟨rfl, heq⟩
        rw [heq]
        simp

/-- **The loop over entries with a bad one** has appended the response to
    the entries before it. -/
theorem readEntries_of_none (content : String) {js : List Json} {read : List (ℤ × String)}
    (hes : entriesFrom read.length js = none) :
    ∃ before, readEntries content js read = read ++ before ++ [(1, content)] ∧
      (before = [] ↔ ∃ j, js.head? = some j ∧ entry read.length j = none) := by
  induction js generalizing read with
  | nil => cases hes
  | cons j js ih =>
    cases he : entry read.length j with
    | none =>
      refine ⟨[], ?_, by simp [he]⟩
      rw [readEntries, (readEntry_eq_none_iff _ _).mpr he]
      simp
    | some e =>
      obtain ⟨e', he'⟩ : ∃ e', readEntry read.length j = some e' := by
        rw [readEntry_eq, he]
        exact ⟨_, rfl⟩
      have hes' : entriesFrom (read ++ [e']).length js = none := by
        simp only [entriesFrom, he] at hes
        rw [List.length_append, List.length_singleton]
        split at hes
        · cases hes
        · next hnone =>
          cases hrest : entriesFrom (read.length + 1) js with
          | none => rfl
          | some es => exact absurd hrest (hnone e es rfl)
      -- the bad entry comes later, and this one stays in front of the response
      obtain ⟨before, hbefore, -⟩ := ih hes'
      refine ⟨e' :: before, ?_, by simp [he]⟩
      simp only [readEntries, he', hbefore]
      simp

/-! ### All or One -/

/-- When the response has the array, its first entry is bad, or none is. -/
def AllOrOne (parse : String → Option Json) (key content : String) : Prop :=
  ∀ j xs, parse content = some j → arrayOf j key = some xs →
    (∃ first, xs.head? = some first ∧ entry 0 first = none) ∨ AllRead 0 xs

theorem entriesFrom_of_allRead {i : ℕ} {js : List Json} (h : AllRead i js) :
    (entriesFrom i js).isSome := by
  induction js generalizing i with
  | nil => rfl
  | cons j js ih =>
    obtain ⟨⟨e, he, -⟩, hrest⟩ := allRead_cons.mp h
    obtain ⟨es, hes⟩ := Option.isSome_iff_exists.mp (ih hrest)
    simp [entriesFrom, he, hes]

theorem entriesFrom_of_head {i : ℕ} {js : List Json} {first : Json} (hhead : js.head? = some first)
    (hbad : entry i first = none) : entriesFrom i js = none := by
  cases js with
  | nil => cases hhead
  | cons j js =>
    obtain rfl : j = first := Option.some.inj hhead
    simp [entriesFrom, hbad]

/-- The loop gives all entries, or the response as one. -/
theorem readEntries_iff (content : String) (xs : List Json) :
    (readEntries content xs [] = match entriesFrom 0 xs with
      | some es => es
      | none => [(1, content)]) ↔
    (∃ first, xs.head? = some first ∧ entry 0 first = none) ∨ AllRead 0 xs := by
  cases hes : entriesFrom 0 xs with
  | some es =>
    have hiff : readEntries content xs [] = [] ++ es ↔ AllRead 0 xs :=
      readEntries_of_some content (show entriesFrom ([] : List (ℤ × String)).length xs = _ from hes)
    -- no entry is bad, and so is not the first
    refine hiff.trans (or_iff_right ?_).symm
    rintro ⟨first, hhead, hbad⟩
    rw [entriesFrom_of_head hhead hbad] at hes
    cases hes
  | none =>
    obtain ⟨before, hbefore, hnil⟩ := readEntries_of_none content
      (show entriesFrom ([] : List (ℤ × String)).length xs = none from hes)
    have hone : [] ++ before ++ [((1 : ℤ), content)] = [(1, content)] ↔ before = [] := by simp
    rw [hbefore]
    -- some entry is bad, and they are not all read
    refine (hone.trans hnil).trans (or_iff_left ?_).symm
    intro hall
    have hsome := entriesFrom_of_allRead hall
    rw [hes] at hsome
    cases hsome

theorem parseEntries_of_array {parse : String → Option Json} {key content : String} {j : Json}
    {xs : List Json} (hparse : parse content = some j) (hxs : arrayOf j key = some xs) :
    parseEntries parse key content = readEntries content xs [] := by
  unfold arrayOf at hxs
  split at hxs
  case h_1 hfield =>
    cases hxs
    simp [parseEntries, hparse, hfield]
  case h_2 => cases hxs

theorem parseEntries_of_no_array {parse : String → Option Json} {key content : String} {j : Json}
    (hparse : parse content = some j) (hxs : arrayOf j key = none) :
    parseEntries parse key content = [] := by
  unfold parseEntries
  simp only [hparse]
  split
  case h_1 xs hfield =>
    rw [arrayOf, hfield] at hxs
    cases hxs
  case h_2 => rfl

/-- **All entries, or the response as one.** -/
theorem parseEntries_iff (parse : String → Option Json) (key content : String) :
    parseEntries parse key content = entries parse key content ↔ AllOrOne parse key content := by
  unfold entries AllOrOne
  cases hparse : parse content with
  | none => simp [parseEntries, hparse]
  | some j =>
    cases hxs : arrayOf j key with
    | none =>
      -- neither gives anything
      rw [parseEntries_of_no_array hparse hxs]
      refine ⟨fun _ j' xs hj' hxs' => ?_, fun _ => by simp [hxs]⟩
      cases hj'
      rw [hxs] at hxs'
      cases hxs'
    | some xs =>
      rw [parseEntries_of_array hparse hxs]
      simp only [hxs]
      rw [readEntries_iff]
      constructor
      · intro h j' xs' hj' hxs'
        cases hj'
        cases hxs.symm.trans hxs'
        exact h
      · intro h
        exact h j xs rfl hxs

end Workflow

open Workflow (entries AllOrOne parseEntries_iff)

/-- The plan of the expected entries. -/
def PlanExecuteWorkflow.expectedPlan (parse : String → Option Json) (r : LLMResponse) :
    List PlanExecuteWorkflow.Step :=
  (entries parse "steps" r.message.content).map fun e => { id := e.1, description := e.2 }

/-- The sub-tasks of the expected entries. -/
def MapReduceWorkflow.expectedTasks (parse : String → Option Json) (r : LLMResponse) :
    List MapReduceWorkflow.SubTask :=
  (entries parse "tasks" r.message.content).map fun e => { id := e.1, description := e.2 }

/-- **Plans and sub-tasks**: a response without an error gives all entries
    of its array, or the whole response as one, or nothing when there is
    no array, if and only if its first entry is bad or none is. -/
theorem plan_entries_iff (parse : String → Option Json) {r : LLMResponse} (hr : r.error = "") :
    (PlanExecuteWorkflow.generatePlan parse r = PlanExecuteWorkflow.expectedPlan parse r ↔
      AllOrOne parse "steps" r.message.content) ∧
    (MapReduceWorkflow.decompose parse r = MapReduceWorkflow.expectedTasks parse r ↔
      AllOrOne parse "tasks" r.message.content) := by
  have herr : ¬r.error ≠ "" := by simpa using hr
  constructor
  · rw [← parseEntries_iff, PlanExecuteWorkflow.generatePlan, if_neg herr,
      PlanExecuteWorkflow.expectedPlan]
    refine List.map_inj_right fun e e' he => ?_
    simp only [PlanExecuteWorkflow.Step.mk.injEq, and_true] at he
    exact Prod.ext he.1 he.2
  · rw [← parseEntries_iff, MapReduceWorkflow.decompose, if_neg herr,
      MapReduceWorkflow.expectedTasks]
    refine List.map_inj_right fun e e' he => ?_
    simp only [MapReduceWorkflow.SubTask.mk.injEq, and_true] at he
    exact Prod.ext he.1 he.2

/-! ### A Bad Entry behind a Good One -/

/-- A good entry, and `last`. -/
def twoEntries (last : Json) : Json :=
  .array [.object [("description", .string "a")], last]

/-- The JSON library on the two responses below. -/
def parseResponse (text : String) : Option Json :=
  if text = "\x7b\"steps\": [\x7b\"description\": \"a\"\x7d, 5]\x7d" then
    some (.object [("steps", twoEntries (.int 5))])
  else if text = "\x7b\"steps\": [\x7b\"description\": \"a\"\x7d, \x7b\"id\": 7\x7d]\x7d" then
    some (.object [("steps", twoEntries (.object [("id", .int 7)]))])
  else none

/-- The plan is the first entry and the whole response. -/
theorem bad_entry_mixed :
    ¬ ∀ (parse : String → Option Json) (r : LLMResponse), r.error = "" →
      PlanExecuteWorkflow.generatePlan parse r = PlanExecuteWorkflow.expectedPlan parse r ∧
      MapReduceWorkflow.decompose parse r = MapReduceWorkflow.expectedTasks parse r := by
  intro hall
  let r : LLMResponse := { message := {
    role := "assistant"
    content := "\x7b\"steps\": [\x7b\"description\": \"a\"\x7d, 5]\x7d" } }
  have hplan : PlanExecuteWorkflow.generatePlan parseResponse r ≠
      PlanExecuteWorkflow.expectedPlan parseResponse r := by decide
  exact hplan (hall parseResponse r rfl).1

theorem good_entries_read :
    ∃ r : LLMResponse, r.error = "" ∧
      r.message.content = "\x7b\"steps\": [\x7b\"description\": \"a\"\x7d, \x7b\"id\": 7\x7d]\x7d" ∧
      PlanExecuteWorkflow.generatePlan parseResponse r =
        PlanExecuteWorkflow.expectedPlan parseResponse r ∧
      PlanExecuteWorkflow.expectedPlan parseResponse r = [⟨1, "a", ""⟩, ⟨7, "", ""⟩] := by
  let r : LLMResponse := { message := {
    role := "assistant"
    content := "\x7b\"steps\": [\x7b\"description\": \"a\"\x7d, \x7b\"id\": 7\x7d]\x7d" } }
  have hall : AllOrOne parseResponse "steps" r.message.content := by
    intro j xs hj hxs
    have hj' : parseResponse r.message.content =
        some (.object [("steps", twoEntries (.object [("id", .int 7)]))]) := rfl
    obtain rfl := Option.some.inj (hj'.symm.trans hj)
    obtain rfl := Option.some.inj (show some _ = some xs from hxs)
    refine .inr fun k j hk => ?_
    match k with
    | 0 =>
      obtain rfl := Option.some.inj hk
      exact ⟨_, rfl, by decide⟩
    | 1 =>
      obtain rfl := Option.some.inj hk
      exact ⟨_, rfl, by decide⟩
    | k + 2 => simp at hk
  exact ⟨r, rfl, rfl, (plan_entries_iff parseResponse rfl).1.mpr hall, by decide⟩

end Forge
