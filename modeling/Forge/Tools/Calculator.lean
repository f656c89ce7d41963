import Mathlib.Data.List.Basic

/-! # Calculator

  `ExprParser` (`tools/builtin/calculator.h`): a recursive-descent parser
  that evaluates while it reads. The cursor `pos_` is what is left of the
  input, a character for each byte. The number conversion `std::stod` and
  the arithmetic of `double` are parameters. An exception is an error with
  its text.

  The procedures call each other in a circle: `parse_atom` takes the
  `parse_expr` it calls as an argument, and every recursion has a bound on
  its depth. `none` means that the bound was too small.
-/

namespace Forge

namespace Calculator

/-- The binary operators. -/
inductive Op where
  | add | sub | mul | div | pow
  deriving DecidableEq

def Op.char : Op → Char
  | .add => '+'
  | .sub => '-'
  | .mul => '*'
  | .div => '/'
  | .pow => '^'

/-- `std::stod` and the operations on its values. -/
structure Arithmetic (α : Type) where
  stod : List Char → Except String α
  add : α → α → α
  sub : α → α → α
  mul : α → α → α
  div : α → α → α
  pow : α → α → α
  neg : α → α
  /-- `right == 0.0`. -/
  isZero : α → Bool

variable {α β : Type}

/-- What a binary operator does with its operands. -/
def Arithmetic.apply (A : Arithmetic α) : Op → α → α → Except String α
  | .add, x, y => .ok (A.add x y)
  | .sub, x, y => .ok (A.sub x y)
  | .mul, x, y => .ok (A.mul x y)
  | .div, x, y => if A.isZero y then .error "Division by zero" else .ok (A.div x y)
  | .pow, x, y => .ok (A.pow x y)

/-- A value and the rest of the input, or an exception. -/
abbrev Result (α : Type) := Option (Except String (α × List Char))

/-- Go on with the value and the rest. -/
def Result.andThen (r : Result α) (f : α → List Char → Result β) : Result β :=
  match r with
  | none => none
  | some (.error e) => some (.error e)
  | some (.ok (v, s)) => f v s

/-- Return a value, or throw. -/
def Result.of (v : Except String α) (s : List Char) : Result α := some (v.map fun v => (v, s))

/-! ### Characters -/

def skipWs (s : List Char) : List Char := s.dropWhile (· = ' ')

/-- `peek`: `'\0'` at the end. -/
def peek (s : List Char) : Char := (skipWs s).headD '\x00'

/-- `consume`: the character, and the rest behind it. -/
def consume (s : List Char) : Char × List Char :=
  match skipWs s with
  | c :: s => (c, s)
  | [] => ('\x00', [])

/-! ### Numbers -/

/-- A sign, if there is one. -/
def scanSign : List Char → List Char × List Char
  | c :: s => if c = '-' ∨ c = '+' then ([c], s) else ([], c :: s)
  | [] => ([], [])

def isMantissa (c : Char) : Bool := c.isDigit || c = '.'

/-- Scientific notation. -/
def scanExponent : List Char → List Char × List Char
  | c :: s =>
      if c = 'e' ∨ c = 'E' then
        let (sign, s) := scanSign s
        (c :: (sign ++ s.takeWhile Char.isDigit), s.dropWhile Char.isDigit)
      else ([], c :: s)
  | [] => ([], [])

/-- The text that `parse_number` converts, and the rest. -/
def scanNumber (s : List Char) : List Char × List Char :=
  let (sign, s) := scanSign s
  let mantissa := s.takeWhile isMantissa
  let (exponent, s) := scanExponent (s.dropWhile isMantissa)
  (sign ++ (mantissa ++ exponent), s)

/-- `parse_number`; `size` is the length of the whole input. -/
def parseNumber (A : Arithmetic α) (size : ℕ) (s : List Char) : Result α :=
  let s := skipWs s
  let (text, rest) := scanNumber s
  if text = [] then
    some (.error ("Expected number at position " ++ toString (size - s.length)))
  else .of (A.stod text) rest

/-! ### Expressions -/

/-- `atom = '(' expr ')' | number`; `expr` is `parse_expr`. -/
def parseAtom (A : Arithmetic α) (size : ℕ) (expr : List Char → Result α) (s : List Char) :
    Result α :=
  if peek s = '(' then
    (expr (consume s).2).andThen fun val s =>
      if (consume s).1 ≠ ')' then some (.error "Missing closing parenthesis")
      else some (.ok (val, (consume s).2))
  else parseNumber A size s

/-- `unary = '-' unary | atom`. -/
def parseUnary (A : Arithmetic α) (atom : List Char → Result α) : ℕ → List Char → Result α
  | 0, _ => none
  | depth + 1, s =>
      if peek s = '-' then
        (parseUnary A atom depth (consume s).2).andThen fun v s => some (.ok (A.neg v, s))
      else atom s

/-- `power = unary ('^' power)?`, right-associative. -/
def parsePower (A : Arithmetic α) (unary : List Char → Result α) : ℕ → List Char → Result α
  | 0, _ => none
  | depth + 1, s =>
      (unary s).andThen fun base s =>
        if peek s = '^' then
          (parsePower A unary depth (consume s).2).andThen fun exp s =>
            some (.ok (A.pow base exp, s))
        else some (.ok (base, skipWs s))

/-- The loops of `parse_expr` and `parse_term`: as long as an operator
    follows, one more operand. -/
def chainLoop (A : Arithmetic α) (ops : Char → Option Op) (operand : List Char → Result α) :
    ℕ → α → List Char → Result α
  | 0, _, _ => none
  | depth + 1, left, s =>
      match ops (peek s) with
      | some op =>
          (operand (consume s).2).andThen fun right s =>
            match A.apply op left right with
            | .error e => some (.error e)
            | .ok v => chainLoop A ops operand depth v s
      | none => some (.ok (left, skipWs s))

/-- The first operand, and the loop. -/
def parseChain (A : Arithmetic α) (ops : Char → Option Op) (operand : List Char → Result α)
    (depth : ℕ) (s : List Char) : Result α :=
  (operand s).andThen (chainLoop A ops operand depth)

def termOps (c : Char) : Option Op :=
  if c = '*' then some .mul else if c = '/' then some .div else none

def exprOps (c : Char) : Option Op :=
  if c = '+' then some .add else if c = '-' then some .sub else none

/-- `term = power (('*' | '/') power)*`. -/
def parseTerm (A : Arithmetic α) (power : List Char → Result α) (depth : ℕ) :
    List Char → Result α :=
  parseChain A termOps power depth

/-- `expr = term (('+' | '-') term)*`, with all the procedures below it. -/
def parseExpr (A : Arithmetic α) (size : ℕ) : ℕ → List Char → Result α
  | 0, _ => none
  | depth + 1, s =>
      let atom := parseAtom A size (parseExpr A size depth)
      let unary := parseUnary A atom (depth + 1)
      let power := parsePower A unary (depth + 1)
      let term := parseTerm A power (depth + 1)
      parseChain A exprOps term (depth + 1) s

/-- `parse`. No recursion is deeper than the input is long. -/
def parse (A : Arithmetic α) (input : List Char) : Option (Except String α) :=
  match parseExpr A input.length (input.length + 1) input with
  | none => none
  | some (.error e) => some (.error e)
  | some (.ok (result, s)) =>
      let s := skipWs s
      if s ≠ [] then
        some (.error ("Unexpected character at position " ++ toString (input.length - s.length)))
      else some (.ok result)

/-! ### What Is Looked At -/

variable {s : List Char} {c : Char}

theorem skipWs_of_ne (hc : c ≠ ' ') : skipWs (c :: s) = c :: s := by
  simp [skipWs, hc]

theorem length_skipWs_le (s : List Char) : (skipWs s).length ≤ s.length :=
  (List.dropWhile_sublist _).length_le

/-- A character that is seen is the first behind the spaces. -/
theorem skipWs_of_peek (hpeek : peek s = c) (hc : c ≠ '\x00') :
    ∃ rest, skipWs s = c :: rest ∧ consume s = (c, rest) ∧ rest.length < s.length := by
  have hle := length_skipWs_le s
  unfold peek at hpeek
  unfold consume
  cases hs : skipWs s with
  | nil =>
    rw [hs] at hpeek
    exact absurd hpeek.symm hc
  | cons d rest =>
    rw [hs] at hpeek hle
    obtain rfl : d = c := hpeek
    exact ⟨rest, rfl, rfl, hle⟩

theorem peek_eq_of_skipWs {rest : List Char} (h : skipWs s = c :: rest) : peek s = c := by
  rw [peek, h]
  rfl

theorem consume_eq_of_skipWs {rest : List Char} (h : skipWs s = c :: rest) :
    consume s = (c, rest) := by
  rw [consume, h]

end Calculator

end Forge
