import Mathlib.Algebra.Group.Nat.Defs
import Mathlib.Data.List.TakeWhile

/-! # Placeholders

  `TaskDAG::substitute` (`workflow/task_dag.h`) replaces `node_N_result`
  in double braces by the result of the node `N`:

  - `matchFront`, `sregexIterator`: `placeholder_re`, searched for from left
    to right without overlap;
  - `substitute`: the loop over the matches, which copies the text between
    them by position;
  - `pieces`, `expand`: the text as a sequence of characters and
    placeholders, and what it reads when the placeholders are filled in.

  `substitute_eq` connects the two.
-/

namespace Forge

namespace TaskDAG

/-- What stands before the digits of a placeholder. -/
def opening : List Char := "\x7b\x7bnode_".toList

/-- What stands behind them. -/
def closing : List Char := "_result\x7d\x7d".toList

/-- The whole placeholder, `match[0]`. -/
def placeholder (digits : List Char) : List Char := opening ++ digits ++ closing

/-- A match of `placeholder_re` at the front of a text: the digits it
    captures. The repetition is greedy, and what follows it is no digit. -/
def matchFront (cs : List Char) : Option (List Char) :=
  let rest := cs.drop opening.length
  let digits := rest.takeWhile Char.isDigit
  if opening <+: cs ∧ digits ≠ [] ∧ closing <+: rest.dropWhile Char.isDigit then some digits
  else none

/-- An element of `std::sregex_iterator`. -/
structure Match where
  position : ℕ
  length : ℕ
  /-- `match[1]`. -/
  digits : List Char
  deriving DecidableEq

/-- The matches in the text that is left, from `position` on. The first
    `skip` characters belong to the match before. -/
def sregexIterator (position : ℕ) : ℕ → List Char → List Match
  | _, [] => []
  | skip + 1, _ :: cs => sregexIterator (position + 1) skip cs
  | 0, c :: cs =>
      match matchFront (c :: cs) with
      | some digits =>
          ⟨position, (placeholder digits).length, digits⟩ ::
            sregexIterator (position + 1) ((placeholder digits).length - 1) cs
      | none => sregexIterator (position + 1) 0 cs

/-- The number the digits stand for. -/
def nodeId (digits : List Char) : ℕ :=
  digits.foldl (fun n c => 10 * n + (c.toNat - '0'.toNat)) 0

/-- `std::stoull`; `none` when it throws `std::out_of_range`. -/
def stoull (digits : List Char) : Option ℕ :=
  if nodeId digits < 2 ^ 64 then some (nodeId digits) else none

/-- The loop over the matches, with `output` and `last_pos` so far. -/
def substituteLoop (input : List Char) (results : ℕ → Option String) :
    List Match → List Char → ℕ → Option (List Char)
  | [], output, lastPos => some (output ++ input.drop lastPos)
  | m :: ms, output, lastPos =>
      match stoull m.digits with
      | none => none
      | some id =>
          let between := (input.drop lastPos).take (m.position - lastPos)
          let inserted := match results id with
            | some result => result.toList
            -- keep placeholder if not found
            | none => (input.drop m.position).take m.length
          substituteLoop input results ms (output ++ between ++ inserted) (m.position + m.length)

/-- `none` when an exception leaves `substitute`. -/
def substitute (input : String) (results : ℕ → Option String) : Option String :=
  (substituteLoop input.toList results (sregexIterator 0 0 input.toList) [] 0).map String.ofList

/-! ### Texts with Placeholders -/

/-- A piece of a text. -/
inductive Piece where
  | char (c : Char)
  | node (digits : List Char)
  deriving DecidableEq

/-- The pieces of the text that is left; the first `skip` characters belong
    to the piece before. -/
def piecesFrom : ℕ → List Char → List Piece
  | _, [] => []
  | skip + 1, _ :: cs => piecesFrom skip cs
  | 0, c :: cs =>
      match matchFront (c :: cs) with
      | some digits => .node digits :: piecesFrom ((placeholder digits).length - 1) cs
      | none => .char c :: piecesFrom 0 cs

def pieces (text : String) : List Piece := piecesFrom 0 text.toList

/-- The node a piece names. -/
def Piece.named : Piece → Option ℕ
  | .char _ => none
  | .node digits => some (nodeId digits)

/-- The nodes the placeholders of a text name. -/
def named (text : String) : List ℕ := (pieces text).filterMap Piece.named

/-- The number of a placeholder fits into `unsigned long long`. -/
def Piece.fits : Piece → Bool
  | .char _ => true
  | .node digits => nodeId digits < 2 ^ 64

/-- A piece with the results filled in; a placeholder without a result
    stays. -/
def Piece.expand (results : ℕ → Option String) : Piece → List Char
  | .char c => [c]
  | .node digits =>
      match results (nodeId digits) with
      | some result => result.toList
      | none => placeholder digits

/-- The text with the results filled in. -/
def expand (text : String) (results : ℕ → Option String) : String :=
  String.ofList ((pieces text).flatMap (Piece.expand results))

/-! ### The Regular Expression -/

theorem placeholder_length_pos (digits : List Char) : 0 < (placeholder digits).length := by
  have hopening : 0 < opening.length := by decide
  rw [placeholder, List.length_append, List.length_append]
  omega

/-- **`placeholder_re`**: a match captures digits, at least one, in their
    braces. -/
theorem matchFront_eq_some_iff {cs digits : List Char} :
    matchFront cs = some digits ↔
      digits ≠ [] ∧ (∀ c ∈ digits, c.isDigit) ∧ placeholder digits <+: cs := by
  simp only [matchFront]
  constructor
  · intro h
    split at h
    case isFalse => cases h
    case isTrue hmatch =>
      cases h
      obtain ⟨⟨rest, rfl⟩, hne, hclosing⟩ := hmatch
      rw [List.drop_left] at hne hclosing ⊢
      obtain ⟨tail, htail⟩ := hclosing
      refine ⟨hne, fun c hc => List.mem_takeWhile_imp hc, tail, ?_⟩
      rw [placeholder, List.append_assoc, List.append_assoc, htail, List.takeWhile_append_dropWhile]
  · rintro ⟨hne, hdigits, tail, rfl⟩
    -- the digits end where the text behind them begins
    have hstop : closing ++ tail = '_' :: (closing.tail ++ tail) := rfl
    have htake : (digits ++ (closing ++ tail)).takeWhile Char.isDigit = digits := by
      rw [List.takeWhile_append_of_pos hdigits, hstop, List.takeWhile_cons_of_neg (by decide),
        List.append_nil]
    have hdrop : (digits ++ (closing ++ tail)).dropWhile Char.isDigit = closing ++ tail := by
      rw [List.dropWhile_append_of_pos hdigits, hstop, List.dropWhile_cons_of_neg (by decide)]
    have hrest : (placeholder digits ++ tail).drop opening.length =
        digits ++ (closing ++ tail) := by
      simp [placeholder]
    rw [hrest, htake, hdrop, if_pos]
    exact ⟨by simp [placeholder], hne, by simp⟩

/-! ### The Loop -/

theorem piecesFrom_of_none {c : Char} {cs : List Char} (h : matchFront (c :: cs) = none) :
    piecesFrom 0 (c :: cs) = .char c :: piecesFrom 0 cs := by
  simp [piecesFrom, h]

theorem piecesFrom_of_some {c : Char} {cs digits : List Char}
    (h : matchFront (c :: cs) = some digits) :
    piecesFrom 0 (c :: cs) = .node digits :: piecesFrom ((placeholder digits).length - 1) cs := by
  simp [piecesFrom, h]

/-- What the matches that are left add to the output. -/
theorem substituteLoop_eq (results : ℕ → Option String) (input cs : List Char) :
    ∀ (pre : List Char) (skip : ℕ) (output : List Char) (lastPos : ℕ), input = pre ++ cs →
      lastPos ≤ pre.length + skip → (skip ≠ 0 → lastPos = pre.length + skip) →
      substituteLoop input results (sregexIterator pre.length skip cs) output lastPos =
        if (piecesFrom skip cs).all Piece.fits then
          some (output ++ pre.drop lastPos ++ (piecesFrom skip cs).flatMap (Piece.expand results))
        else none := by
  induction cs with
  | nil =>
    intro pre skip output lastPos hinput _ _
    simp [sregexIterator, piecesFrom, substituteLoop, hinput]
  | cons c cs ih =>
    intro pre skip output lastPos hinput hle hskip
    have hinput' : input = (pre ++ [c]) ++ cs := by simp [hinput]
    have hlen : (pre ++ [c]).length = pre.length + 1 := by simp
    cases skip with
    | succ skip =>
      -- a character of the match before
      have hpos := hskip (by simp)
      have hnext := ih (pre ++ [c]) skip output lastPos hinput' (by omega) (fun _ => by omega)
      rw [List.drop_of_length_le (by omega)] at hnext ⊢
      rw [hlen] at hnext
      exact hnext
    | zero =>
      cases hmatch : matchFront (c :: cs) with
      | none =>
        have hnext := ih (pre ++ [c]) 0 output lastPos hinput' (by omega) (by simp)
        rw [hlen, List.drop_append_of_le_length hle] at hnext
        rw [piecesFrom_of_none hmatch]
        simpa [sregexIterator, hmatch, Piece.fits, Piece.expand] using hnext
      | some digits =>
        obtain ⟨-, -, tail, htail⟩ := matchFront_eq_some_iff.mp hmatch
        have hone := placeholder_length_pos digits
        have hbetween : (input.drop lastPos).take (pre.length - lastPos) = pre.drop lastPos := by
          rw [hinput, List.drop_append_of_le_length hle, List.take_left' (by simp)]
        have hwhole : (input.drop pre.length).take (placeholder digits).length =
            placeholder digits := by
          rw [hinput, List.drop_left, ← htail, List.take_left]
        rw [piecesFrom_of_some hmatch]
        simp only [sregexIterator, hmatch, substituteLoop, stoull]
        by_cases hlt : nodeId digits < 2 ^ 64
        · have hfits : (Piece.node digits).fits := decide_eq_true hlt
          have hnext := ih (pre ++ [c]) ((placeholder digits).length - 1)
            (output ++ pre.drop lastPos ++ Piece.expand results (.node digits))
            (pre.length + (placeholder digits).length) hinput' (by omega) (fun _ => by omega)
          have hnil : (pre ++ [c]).drop (pre.length + (placeholder digits).length) = [] :=
            List.drop_of_length_le (by omega)
          rw [hnil, hlen] at hnext
          rw [if_pos hlt]
          simpa [hbetween, hwhole, Piece.expand, hfits] using hnext
        · have hfits : ¬(Piece.node digits).fits := fun h => hlt (of_decide_eq_true h)
          rw [if_neg hlt]
          simp [hfits]

/-- **The splice**: `substitute` fills in the results in one pass from left
    to right, or throws because of a number that does not fit. -/
theorem substitute_eq (input : String) (results : ℕ → Option String) :
    substitute input results =
      if (pieces input).all Piece.fits then some (expand input results) else none := by
  have hloop := substituteLoop_eq results input.toList input.toList [] 0 [] 0 rfl
    (Nat.zero_le _) (fun h => absurd rfl h)
  rw [List.length_nil] at hloop
  rw [substitute, hloop]
  by_cases hfits : (piecesFrom 0 input.toList).all Piece.fits
  · rw [if_pos hfits, pieces, if_pos hfits]
    rfl
  · rw [if_neg hfits, pieces, if_neg hfits]
    rfl

theorem fits_of_named {text : String} (h : ∀ n ∈ named text, n < 2 ^ 64) :
    (pieces text).all Piece.fits := by
  rw [List.all_eq_true]
  intro piece hmem
  cases piece with
  | char c => rfl
  | node digits => exact decide_eq_true (h _ (List.mem_filterMap.mpr ⟨_, hmem, rfl⟩))

/-- Only the nodes that are named matter. -/
theorem expand_congr {text : String} {results results' : ℕ → Option String}
    (h : ∀ n ∈ named text, results n = results' n) :
    expand text results = expand text results' := by
  unfold expand
  rw [List.flatMap_def, List.flatMap_def]
  congr 2
  apply List.map_congr_left
  intro piece hmem
  cases piece with
  | char c => rfl
  | node digits =>
    have hnamed : nodeId digits ∈ named text := List.mem_filterMap.mpr ⟨_, hmem, rfl⟩
    simp only [Piece.expand, h _ hnamed]

/-! ### What Is Promised -/

/-- What is read in place of a placeholder. -/
def inserted (results : ℕ → Option String) (digits : List Char) : List Char :=
  Piece.expand results (.node digits)

/-- The leftmost placeholder is replaced, and behind it the next; what is
    in no placeholder is copied. -/
inductive Replaced (results : ℕ → Option String) : List Char → List Char → Prop where
  | nil : Replaced results [] []
  | node {digits rest output} : digits ≠ [] → (∀ c ∈ digits, c.isDigit) →
      Replaced results rest output →
      Replaced results (placeholder digits ++ rest) (inserted results digits ++ output)
  | char {c rest output} :
      (∀ digits, digits ≠ [] → (∀ c ∈ digits, c.isDigit) → ¬placeholder digits <+: c :: rest) →
      Replaced results rest output → Replaced results (c :: rest) (c :: output)

theorem replaced_piecesFrom (results : ℕ → Option String) (cs : List Char) :
    ∀ skip ≤ cs.length,
      Replaced results (cs.drop skip) ((piecesFrom skip cs).flatMap (Piece.expand results)) := by
  induction cs with
  | nil =>
    intro skip _
    simpa [piecesFrom] using Replaced.nil
  | cons c cs ih =>
    intro skip hskip
    cases skip with
    | succ skip => exact ih skip (by simpa using hskip)
    | zero =>
      cases hmatch : matchFront (c :: cs) with
      | none =>
        rw [piecesFrom_of_none hmatch]
        refine Replaced.char ?_ (ih 0 (Nat.zero_le _))
        intro digits hne hdigits hpre
        rw [matchFront_eq_some_iff.mpr ⟨hne, hdigits, hpre⟩] at hmatch
        cases hmatch
      | some digits =>
        obtain ⟨hne, hdigits, tail, htail⟩ := matchFront_eq_some_iff.mp hmatch
        have hpos := placeholder_length_pos digits
        have hlen := congrArg List.length htail
        simp only [List.length_append, List.length_cons] at hlen
        -- the text behind the placeholder
        have hrest : cs.drop ((placeholder digits).length - 1) = tail := by
          have hdrop := congrArg (List.drop (placeholder digits).length) htail
          rw [List.drop_left, List.drop_cons hpos] at hdrop
          exact hdrop.symm
        have hnext := ih ((placeholder digits).length - 1) (by omega)
        rw [hrest] at hnext
        rw [piecesFrom_of_some hmatch, List.drop_zero, ← htail]
        exact Replaced.node hne hdigits hnext

/-- **`substitute`** returns, with the placeholders replaced and the rest
    copied, if and only if every placeholder has a number that fits into
    `unsigned long long`. -/
theorem substitute_iff (input : String) (results : ℕ → Option String) :
    (∃ output, substitute input results = some output ∧
      Replaced results input.toList output.toList) ↔ ∀ n ∈ named input, n < 2 ^ 64 := by
  rw [substitute_eq]
  constructor
  · rintro ⟨output, hsome, -⟩ n hn
    split at hsome
    case isFalse => cases hsome
    case isTrue hfits =>
      obtain ⟨piece, hmem, hpiece⟩ := List.mem_filterMap.mp hn
      have hfit := List.all_eq_true.mp hfits piece hmem
      cases piece with
      | char c => cases hpiece
      | node digits =>
        cases hpiece
        exact of_decide_eq_true hfit
  · intro h
    refine ⟨expand input results, if_pos (fits_of_named h), ?_⟩
    rw [expand, String.toList_ofList]
    exact replaced_piecesFrom results input.toList 0 (Nat.zero_le _)

/-- A number that does not fit makes `std::stoull` throw, where a
    placeholder without a result should stay. -/
theorem substitute_out_of_range :
    ¬ ∀ (input : String) (results : ℕ → Option String), ∃ output,
      substitute input results = some output ∧ Replaced results input.toList output.toList := by
  intro hall
  obtain ⟨output, hsome, -⟩ :=
    hall "\x7b\x7bnode_18446744073709551616_result\x7d\x7d" fun _ => none
  have hnone : substitute "\x7b\x7bnode_18446744073709551616_result\x7d\x7d" (fun _ => none) =
      none := by decide
  rw [hnone] at hsome
  cases hsome

end TaskDAG

end Forge
