import Forge.Framework.MaximalMunch
import Forge.Tools.Calculator

/-! # Calculator — Grammar

  What the comments of `ExprParser` (`tools/builtin/calculator.h`) say it
  accepts, independently of how it reads:

  - `NumberText`, `Token`, `Spells`: the tokens of a string, spaces
    between them left out, numbers as long as possible;
  - `Derives`: the grammar, with the tree of a derivation;
  - `eval`: the value of a tree, from left to right;
  - `tokens`, `print`: a tree with the parentheses that it needs.
-/

namespace Forge

namespace Calculator

variable {α : Type}

/-! ### Tokens -/

/-- The exponent part of a number, also without digits. -/
def ExponentText (text : List Char) : Prop :=
  ∃ e sign digits, text = e :: (sign ++ digits) ∧ (e = 'e' ∨ e = 'E') ∧
    (sign = [] ∨ sign = ['+'] ∨ sign = ['-']) ∧ ∀ c ∈ digits, c.isDigit

/-- `[+]? [0-9.]* ([eE] [+-]? [0-9]*)?`, not empty. A minus sign in front
    is the operator. -/
def NumberText (text : List Char) : Prop :=
  text ≠ [] ∧ ∃ sign mantissa exponent, text = sign ++ (mantissa ++ exponent) ∧
    (sign = [] ∨ sign = ['+']) ∧ (∀ c ∈ mantissa, isMantissa c) ∧
    (exponent = [] ∨ ExponentText exponent)

inductive Token where
  | op (o : Op)
  | lparen
  | rparen
  | number (text : List Char)
  deriving DecidableEq

def Token.text : Token → List Char
  | .op o => [o.char]
  | .lparen => ['(']
  | .rparen => [')']
  | .number text => text

/-- The tokens of a string. A number ends where it cannot go on. -/
inductive Spells : List Token → List Char → Prop where
  | nil : Spells [] []
  | space {toks : List Token} {s : List Char} : Spells toks s → Spells toks (' ' :: s)
  | op (o : Op) {toks : List Token} {s : List Char} : Spells toks s →
      Spells (.op o :: toks) (o.char :: s)
  | lparen {toks : List Token} {s : List Char} : Spells toks s → Spells (.lparen :: toks) ('(' :: s)
  | rparen {toks : List Token} {s : List Char} : Spells toks s → Spells (.rparen :: toks) (')' :: s)
  | number {text s : List Char} {toks : List Token} : NumberText text →
      (∀ c ∈ s.head?, ¬NumberText (text ++ [c])) → Spells toks s →
      Spells (.number text :: toks) (text ++ s)

/-! ### Derivations -/

inductive Tree where
  | number (text : List Char)
  | neg (t : Tree)
  | binary (o : Op) (l r : Tree)
  deriving DecidableEq

/-- The nonterminals. -/
inductive Category where
  | expr | term | power | unary | atom
  deriving DecidableEq

/-- The operators of the two left-associative nonterminals. -/
def IsExprOp (o : Op) : Prop := o = .add ∨ o = .sub

def IsTermOp (o : Op) : Prop := o = .mul ∨ o = .div

/-- The grammar. `expr` and `term` are written with the operator that is
    applied last, so that their trees are left-associative. -/
inductive Derives : Category → Tree → List Token → Prop where
  | term {t : Tree} {w : List Token} : Derives .term t w → Derives .expr t w
  | exprOp {o : Op} {l r : Tree} {w₁ w₂ : List Token} : IsExprOp o → Derives .expr l w₁ →
      Derives .term r w₂ → Derives .expr (.binary o l r) (w₁ ++ .op o :: w₂)
  | power {t : Tree} {w : List Token} : Derives .power t w → Derives .term t w
  | termOp {o : Op} {l r : Tree} {w₁ w₂ : List Token} : IsTermOp o → Derives .term l w₁ →
      Derives .power r w₂ → Derives .term (.binary o l r) (w₁ ++ .op o :: w₂)
  | unary {t : Tree} {w : List Token} : Derives .unary t w → Derives .power t w
  | powerOp {b e : Tree} {w₁ w₂ : List Token} : Derives .unary b w₁ → Derives .power e w₂ →
      Derives .power (.binary .pow b e) (w₁ ++ .op .pow :: w₂)
  | atom {t : Tree} {w : List Token} : Derives .atom t w → Derives .unary t w
  | neg {t : Tree} {w : List Token} : Derives .unary t w → Derives .unary (.neg t) (.op .sub :: w)
  | parens {t : Tree} {w : List Token} : Derives .expr t w →
      Derives .atom t (.lparen :: (w ++ [.rparen]))
  | number (text : List Char) : Derives .atom (.number text) [.number text]

/-- The value of a tree: its numbers are converted and its operators
    applied from left to right. -/
def eval (A : Arithmetic α) : Tree → Except String α
  | .number text => A.stod text
  | .neg t => (eval A t).map A.neg
  | .binary o l r => do
      let x ← eval A l
      let y ← eval A r
      A.apply o x y

/-! ### Printing -/

/-- The category of a tree without parentheses around it. -/
def Tree.category : Tree → Category
  | .number _ => .atom
  | .neg _ => .unary
  | .binary .pow _ _ => .power
  | .binary .mul _ _ | .binary .div _ _ => .term
  | .binary .add _ _ | .binary .sub _ _ => .expr

/-- From the loosest to the tightest. -/
def Category.rank : Category → ℕ
  | .expr => 0
  | .term => 1
  | .power => 2
  | .unary => 3
  | .atom => 4

/-- Parentheses, where the tree binds less than its place asks for. -/
def Category.wrap (c : Category) (t : Tree) (w : List Token) : List Token :=
  if c.rank ≤ t.category.rank then w else .lparen :: (w ++ [.rparen])

/-- The places of the two operands. -/
def Op.operands : Op → Category × Category
  | .add | .sub => (.expr, .term)
  | .mul | .div => (.term, .power)
  | .pow => (.unary, .power)

def Tree.tokens : Tree → List Token
  | .number text => [.number text]
  | .neg t => .op .sub :: Category.unary.wrap t t.tokens
  | .binary o l r =>
      o.operands.1.wrap l l.tokens ++ .op o :: o.operands.2.wrap r r.tokens

/-- The tokens with spaces between them. -/
def spaced (w : List Token) : List Char := w.flatMap fun tok => tok.text ++ [' ']

def Tree.print (t : Tree) : List Char := spaced t.tokens

/-- The leaves are numbers that can be written. -/
def Tree.Printable : Tree → Prop
  | .number text => NumberText text
  | .neg t => t.Printable
  | .binary _ l r => l.Printable ∧ r.Printable

/-- A tree derives from any category that is loose enough. -/
theorem Derives.loosen {t : Tree} {w : List Token} {c c' : Category} (h : Derives c t w)
    (hle : c'.rank ≤ c.rank) : Derives c' t w := by
  have hunary : Derives .atom t w → Derives .unary t w := .atom
  have hpower : Derives .unary t w → Derives .power t w := .unary
  have hterm : Derives .power t w → Derives .term t w := .power
  have hexpr : Derives .term t w → Derives .expr t w := .term
  cases c <;> cases c' <;> first
    | exact h
    | exact absurd hle (by decide)
    | simp_all

theorem Derives.wrap {t : Tree} {w : List Token} (h : Derives t.category t w) (c : Category) :
    Derives c t (c.wrap t w) := by
  unfold Category.wrap
  split
  · next hle => exact h.loosen hle
  · have hatom : Derives .atom t (.lparen :: (w ++ [.rparen])) :=
      .parens (h.loosen (Nat.zero_le _))
    refine hatom.loosen ?_
    cases c <;> decide

/-- **A printed tree derives.** -/
theorem Tree.tokens_derives (t : Tree) : Derives t.category t t.tokens := by
  induction t with
  | number text => exact .number text
  | neg t ih => exact .neg (ih.wrap .unary)
  | binary o l r ihl ihr =>
    cases o with
    | add => exact .exprOp (.inl rfl) (ihl.wrap .expr) (ihr.wrap .term)
    | sub => exact .exprOp (.inr rfl) (ihl.wrap .expr) (ihr.wrap .term)
    | mul => exact .termOp (.inl rfl) (ihl.wrap .term) (ihr.wrap .power)
    | div => exact .termOp (.inr rfl) (ihl.wrap .term) (ihr.wrap .power)
    | pow => exact .powerOp (ihl.wrap .unary) (ihr.wrap .power)

end Calculator

end Forge
