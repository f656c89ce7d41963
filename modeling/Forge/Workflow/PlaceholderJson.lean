import Forge.Utils.JsonText
import Forge.Workflow.Placeholder

/-! # Placeholders in JSON Arguments

  `arguments_json` is a JSON document, and the README writes placeholders
  into its strings. `substitute` copies the results as they are, without
  escapes.

  - `Template`: a document with placeholders in its strings, and the value
    it should denote once they are replaced;
  - `Separable`: a text in which no placeholder reaches over a quotation
    mark, so that its parts can be filled in one by one.
-/

namespace Forge

namespace TaskDAG

open JsonText

variable {results : ℕ → Option String}

/-! ### Where Placeholders Stop -/

/-- `expand`, on characters. -/
def expandChars (results : ℕ → Option String) (cs : List Char) : List Char :=
  (piecesFrom 0 cs).flatMap (Piece.expand results)

theorem expand_toList (text : String) (results : ℕ → Option String) :
    (expand text results).toList = expandChars results text.toList :=
  String.toList_ofList

/-- The characters of a placeholder. -/
theorem mem_placeholder {digits : List Char} (hdigits : ∀ d ∈ digits, d.isDigit) {c : Char}
    (hc : c ∈ placeholder digits) : c.isDigit ∨ c ∈ opening ++ closing := by
  simp only [placeholder, List.mem_append] at hc ⊢
  obtain (hc | hc) | hc := hc
  · exact Or.inr (Or.inl hc)
  · exact Or.inl (hdigits c hc)
  · exact Or.inr (Or.inr hc)

theorem quote_not_mem_placeholder {digits : List Char} (hdigits : ∀ d ∈ digits, d.isDigit) :
    '"' ∉ placeholder digits := by
  intro hmem
  obtain hdigit | hrest := mem_placeholder hdigits hmem
  · revert hdigit
    decide
  · revert hrest
    decide

theorem placeholder_plain {digits : List Char} (hdigits : ∀ d ∈ digits, d.isDigit) :
    ∀ c ∈ placeholder digits, isPlain c := by
  intro c hc
  obtain hdigit | hrest := mem_placeholder hdigits hc
  · exact isPlain_of_isDigit hdigit
  · have hall : ∀ c ∈ opening ++ closing, isPlain c := List.all_eq_true.mp (by decide)
    exact hall c hrest

/-- A prefix ends before a character that it does not contain. -/
theorem prefix_of_not_mem {α : Type} {p l rest : List α} {x : α} (hx : x ∉ p)
    (h : p <+: l ++ x :: rest) : p <+: l := by
  -- otherwise it would reach over the `x` behind `l`
  rcases List.prefix_or_prefix_of_prefix h (List.prefix_append l (x :: rest)) with hle | ⟨q, rfl⟩
  · exact hle
  · rw [List.prefix_append_right_inj] at h
    cases q with
    | nil => simp
    | cons y q =>
      obtain ⟨rfl, -⟩ := List.cons_prefix_cons.mp h
      exact absurd (by simp) hx

theorem matchFront_quote (cs rest : List Char) :
    matchFront (cs ++ '"' :: rest) = matchFront cs := by
  apply Option.ext
  intro digits
  simp only [matchFront_eq_some_iff]
  constructor
  · rintro ⟨hne, hdigits, hpre⟩
    exact ⟨hne, hdigits, prefix_of_not_mem (quote_not_mem_placeholder hdigits) hpre⟩
  · rintro ⟨hne, hdigits, hpre⟩
    exact ⟨hne, hdigits, hpre.trans (List.prefix_append _ _)⟩

theorem matchFront_of_ne {c : Char} (hc : c ≠ '\x7b') (cs : List Char) :
    matchFront (c :: cs) = none := by
  apply Option.eq_none_iff_forall_ne_some.mpr
  intro digits hmatch
  obtain ⟨-, -, hpre⟩ := matchFront_eq_some_iff.mp hmatch
  exact hc (List.cons_prefix_cons.mp hpre).1.symm

theorem matchFront_of_not_mem {cs : List Char} (h : '_' ∉ cs) : matchFront cs = none := by
  apply Option.eq_none_iff_forall_ne_some.mpr
  intro digits hmatch
  obtain ⟨-, -, hpre⟩ := matchFront_eq_some_iff.mp hmatch
  have hopening : '_' ∈ opening := by decide
  exact h (hpre.subset (List.mem_append_left _ (List.mem_append_left _ hopening)))

/-- A quotation mark is a piece of its own. -/
theorem piecesFrom_quote (cs rest : List Char) : ∀ skip ≤ cs.length,
    piecesFrom skip (cs ++ '"' :: rest) =
      piecesFrom skip cs ++ .char '"' :: piecesFrom 0 rest := by
  induction cs with
  | nil =>
    intro skip hskip
    obtain rfl : skip = 0 := by simpa using hskip
    exact piecesFrom_of_none (matchFront_of_ne (by decide) rest)
  | cons c cs ih =>
    intro skip hskip
    cases skip with
    | succ skip => exact ih skip (by simpa using hskip)
    | zero =>
      have hsame := matchFront_quote (c :: cs) rest
      rw [List.cons_append] at hsame ⊢
      cases hmatch : matchFront (c :: cs) with
      | none =>
        rw [piecesFrom_of_none (hsame.trans hmatch), piecesFrom_of_none hmatch,
          ih 0 (Nat.zero_le _), List.cons_append]
      | some digits =>
        -- the match ends before the quotation mark
        obtain ⟨-, -, hpre⟩ := matchFront_eq_some_iff.mp hmatch
        have hlen := hpre.length_le
        rw [List.length_cons] at hlen
        rw [piecesFrom_of_some (hsame.trans hmatch), piecesFrom_of_some hmatch,
          ih _ (by omega), List.cons_append]

theorem piecesFrom_of_not_mem {cs : List Char} (h : '_' ∉ cs) :
    piecesFrom 0 cs = cs.map Piece.char := by
  induction cs with
  | nil => rfl
  | cons c cs ih =>
    rw [piecesFrom_of_none (matchFront_of_not_mem h), ih fun hmem => h (.tail c hmem),
      List.map_cons]

/-- The pieces of a literal and of what stands around it. -/
theorem piecesFrom_literal (cs raw rest : List Char) :
    piecesFrom 0 (cs ++ '"' :: (raw ++ '"' :: rest)) =
      piecesFrom 0 cs ++ .char '"' :: (piecesFrom 0 raw ++ .char '"' :: piecesFrom 0 rest) := by
  rw [piecesFrom_quote cs _ 0 (Nat.zero_le _), piecesFrom_quote raw rest 0 (Nat.zero_le _)]

/-! ### Filling In Parts -/

/-- A text in whose parts outside of string literals no placeholder can
    stand. What is between the quotation marks is arbitrary. -/
inductive Separable : List Char → Prop where
  | outside {cs} : '_' ∉ cs → Separable cs
  | literal {cs raw rest} : '_' ∉ cs → Separable rest →
      Separable (cs ++ '"' :: (raw ++ '"' :: rest))

theorem Separable.append {cs rest : List Char} (h : Separable cs) (h' : Separable rest) :
    Separable (cs ++ rest) := by
  induction h with
  | outside hcs =>
    cases h' with
    | outside hcs' => exact .outside (by simp [hcs, hcs'])
    | literal hcs' hrest =>
      rw [← List.append_assoc]
      exact .literal (by simp [hcs, hcs']) hrest
  | literal hcs _ ih =>
    simp only [List.append_assoc, List.cons_append]
    exact .literal hcs ih

theorem Separable.cons {c : Char} {cs : List Char} (hc : c ≠ '_') (h : Separable cs) :
    Separable (c :: cs) :=
  (Separable.outside (by simpa using hc.symm) : Separable [c]).append h

/-- The pieces of two parts side by side. -/
theorem Separable.piecesFrom_append {cs rest : List Char} (h : Separable cs)
    (h' : Separable rest) : piecesFrom 0 (cs ++ rest) = piecesFrom 0 cs ++ piecesFrom 0 rest := by
  induction h with
  | @outside cs hcs =>
    cases h' with
    | outside hcs' =>
      have hboth : '_' ∉ cs ++ rest := by simp [hcs, hcs']
      rw [piecesFrom_of_not_mem hboth, piecesFrom_of_not_mem hcs, piecesFrom_of_not_mem hcs',
        List.map_append]
    | @literal cs' raw rest hcs' _ =>
      -- what is outside on both sides is outside of literals as a whole
      have hboth : '_' ∉ cs ++ cs' := by simp [hcs, hcs']
      rw [← List.append_assoc, piecesFrom_literal, piecesFrom_literal,
        piecesFrom_of_not_mem hboth, piecesFrom_of_not_mem hcs, piecesFrom_of_not_mem hcs',
        List.map_append, List.append_assoc]
  | literal hcs _ ih =>
    simp only [List.append_assoc, List.cons_append]
    rw [piecesFrom_literal, piecesFrom_literal, ih]
    simp only [List.append_assoc, List.cons_append]

theorem Separable.expandChars_append {cs rest : List Char} (h : Separable cs)
    (h' : Separable rest) :
    expandChars results (cs ++ rest) = expandChars results cs ++ expandChars results rest := by
  unfold expandChars
  rw [h.piecesFrom_append h', List.flatMap_append]

/-- Outside of literals the text stays as it is. -/
theorem expandChars_of_not_mem {cs : List Char} (h : '_' ∉ cs) : expandChars results cs = cs := by
  unfold expandChars
  rw [piecesFrom_of_not_mem h, List.flatMap_map]
  exact List.flatMap_singleton' cs

theorem Separable.expandChars_cons {c : Char} {cs : List Char} (hc : c ≠ '_')
    (h : Separable cs) : expandChars results (c :: cs) = c :: expandChars results cs := by
  have hone : '_' ∉ [c] := by simpa using hc.symm
  calc expandChars results (c :: cs)
      = expandChars results [c] ++ expandChars results cs :=
        (Separable.outside hone).expandChars_append h
    _ = c :: expandChars results cs := by rw [expandChars_of_not_mem hone]; rfl

theorem separable_literal (raw : List Char) : Separable ('"' :: raw ++ ['"']) := by
  have hnil : '_' ∉ ([] : List Char) := List.not_mem_nil
  exact Separable.literal hnil (.outside hnil)

theorem expandChars_literal (raw : List Char) :
    expandChars results ('"' :: raw ++ ['"']) = '"' :: expandChars results raw ++ ['"'] := by
  have hpieces := piecesFrom_literal [] raw []
  unfold expandChars
  rw [List.nil_append] at hpieces
  rw [List.cons_append, hpieces]
  simp [piecesFrom, Piece.expand]

theorem separable_singleton {c : Char} (hc : c ≠ '_') : Separable [c] :=
  .outside (by simpa using hc.symm)

theorem separable_whitespace {w : List Char} (hw : IsWhitespace w) : Separable w :=
  .outside (hw.not_mem (by decide))

theorem number_not_mem {text : List Char} {j : Json} (h : NumberText text j) : '_' ∉ text := by
  intro hmem
  have hnumeric := h.isNumeric _ hmem
  revert hnumeric
  decide

/-- **Documents** can be filled in literal by literal. -/
theorem separable_of_derives {name string : List Char → List Char → Prop} {text : List Char}
    {node : Node} (h : Derives name string text node) : Separable text := by
  induction h with
  | null => exact .outside (by decide)
  | false => exact .outside (by decide)
  | true => exact .outside (by decide)
  | number hnumber => exact .outside (number_not_mem hnumber)
  | string _ => exact separable_literal _
  | noItems hw | noMembers hw =>
    exact ((separable_whitespace hw).append (separable_singleton (by decide))).cons (by decide)
  | array _ ih | object _ ih =>
    exact (ih.append (separable_singleton (by decide))).cons (by decide)
  | item hw _ hw' ih =>
    exact ((separable_whitespace hw).append ih).append (separable_whitespace hw')
  | lastItem _ ih | lastMember _ ih => exact ih
  | items _ _ ih ih' | members _ _ ih ih' => exact ih.append (ih'.cons (by decide))
  | @member w raw s w' text j hw _ hw' _ ih =>
    have hquoted := (separable_whitespace hw).append (separable_literal raw)
    exact (hquoted.append (separable_whitespace hw')).append (ih.cons (by decide))

/-! ### Documents with Placeholders -/

/-- A string with its placeholders replaced by the results. -/
inductive Filled (results : ℕ → Option String) : List Char → List Char → Prop where
  | nil : Filled results [] []
  | node {digits raw s} : digits ≠ [] → (∀ d ∈ digits, d.isDigit) → Filled results raw s →
      Filled results (placeholder digits ++ raw) (inserted results digits ++ s)
  | char {u c raw s} : StringChar u c → matchFront (u ++ raw) = none → Filled results raw s →
      Filled results (u ++ raw) (c :: s)

/-- A name, without placeholders of completed nodes. -/
def KeptName (results : ℕ → Option String) (raw s : List Char) : Prop :=
  Decodes raw s ∧ ∀ digits, .node digits ∈ piecesFrom 0 raw → results (nodeId digits) = none

/-- The text is a JSON document with placeholders in its strings, and the
    value is what it denotes when they are replaced. -/
def Template (results : ℕ → Option String) (text : String) (j : Json) : Prop :=
  Derives (KeptName results) (Filled results) text.toList (.item j)

/-- What is inserted for the placeholders of a text stands for itself. -/
def InsertsPlain (results : ℕ → Option String) (cs : List Char) : Prop :=
  ∀ digits, .node digits ∈ piecesFrom 0 cs → ∀ c ∈ inserted results digits, isPlain c

theorem piecesFrom_skip (cs rest : List Char) :
    piecesFrom cs.length (cs ++ rest) = piecesFrom 0 rest := by
  induction cs with
  | nil => rfl
  | cons c cs ih => exact ih

theorem piecesFrom_placeholder {digits : List Char} (hne : digits ≠ [])
    (hdigits : ∀ d ∈ digits, d.isDigit) (raw : List Char) :
    piecesFrom 0 (placeholder digits ++ raw) = .node digits :: piecesFrom 0 raw := by
  have hmatch : matchFront (placeholder digits ++ raw) = some digits :=
    matchFront_eq_some_iff.mpr ⟨hne, hdigits, List.prefix_append _ _⟩
  obtain ⟨c, tail, htail⟩ := List.exists_cons_of_length_pos (placeholder_length_pos digits)
  rw [htail, List.cons_append] at hmatch ⊢
  rw [piecesFrom_of_some hmatch, htail, List.length_cons, Nat.add_sub_cancel, piecesFrom_skip]

/-- No placeholder begins without a brace. -/
theorem piecesFrom_of_no_brace {cs : List Char} (h : '\x7b' ∉ cs) (rest : List Char) :
    piecesFrom 0 (cs ++ rest) = cs.map Piece.char ++ piecesFrom 0 rest := by
  induction cs with
  | nil => rfl
  | cons c cs ih =>
    rw [List.mem_cons, not_or] at h
    rw [List.cons_append, piecesFrom_of_none (matchFront_of_ne (Ne.symm h.1) _), ih h.2]
    rfl

theorem piecesFrom_char {u raw : List Char} {c : Char} (hchar : StringChar u c)
    (hnone : matchFront (u ++ raw) = none) :
    piecesFrom 0 (u ++ raw) = u.map Piece.char ++ piecesFrom 0 raw := by
  obtain ⟨rfl, -⟩ | ⟨-, hescape⟩ := hchar.plain_or_escape
  · exact piecesFrom_of_none hnone
  · refine piecesFrom_of_no_brace (fun hmem => ?_) raw
    have hbrace := hescape _ hmem
    revert hbrace
    decide

/-- **A string** reads as it should when what is inserted needs no escapes. -/
theorem Filled.decodes {raw s : List Char} (h : Filled results raw s)
    (hplain : InsertsPlain results raw) : Decodes (expandChars results raw) s := by
  induction h with
  | nil => exact Decodes.nil
  | @node digits raw s hne hdigits _ ih =>
    have hpieces := piecesFrom_placeholder hne hdigits raw
    rw [expandChars, hpieces, List.flatMap_cons]
    -- the result takes the place of the placeholder, and reads as itself
    have hinserted := hplain digits (by rw [hpieces]; exact List.mem_cons_self)
    refine (decodes_of_plain hinserted).append (ih fun ds hds => hplain ds ?_)
    rw [hpieces]
    exact List.mem_cons_of_mem _ hds
  | @char u c raw s hchar hnone _ ih =>
    have hpieces := piecesFrom_char hchar hnone
    rw [expandChars, hpieces, List.flatMap_append, List.flatMap_map]
    -- an escape is copied, and reads what it did
    have hsame : (u.flatMap fun c => Piece.expand results (.char c)) = u :=
      List.flatMap_singleton' u
    rw [hsame]
    refine Decodes.cons hchar (ih fun ds hds => hplain ds ?_)
    rw [hpieces]
    exact List.mem_append_right _ hds

theorem InsertsPlain.of_append {cs rest : List Char} (hcs : Separable cs) (hrest : Separable rest)
    (h : InsertsPlain results (cs ++ rest)) :
    InsertsPlain results cs ∧ InsertsPlain results rest := by
  unfold InsertsPlain at h
  rw [hcs.piecesFrom_append hrest] at h
  exact ⟨fun ds hds => h ds (List.mem_append_left _ hds),
    fun ds hds => h ds (List.mem_append_right _ hds)⟩

theorem InsertsPlain.of_cons {c : Char} {cs : List Char} (hc : c ≠ '_') (hcs : Separable cs)
    (h : InsertsPlain results (c :: cs)) : InsertsPlain results cs :=
  (InsertsPlain.of_append (separable_singleton hc) hcs h).2

theorem InsertsPlain.of_literal {raw : List Char}
    (h : InsertsPlain results ('"' :: raw ++ ['"'])) : InsertsPlain results raw := by
  intro ds hds
  apply h
  have hpieces := piecesFrom_literal [] raw []
  rw [List.nil_append] at hpieces
  rw [List.cons_append, hpieces]
  simp [hds]

/-- What is between two brackets. -/
theorem expandChars_enclosed {l r : Char} {cs : List Char} (hl : l ≠ '_') (hr : r ≠ '_')
    (h : Separable cs) :
    expandChars results (l :: cs ++ [r]) = l :: expandChars results cs ++ [r] := by
  have hend := separable_singleton hr
  have hsame : expandChars results [r] = [r] := expandChars_of_not_mem (by simpa using hr.symm)
  rw [List.cons_append, (h.append hend).expandChars_cons hl, h.expandChars_append hend, hsame,
    List.cons_append]

theorem InsertsPlain.of_enclosed {l r : Char} {cs : List Char} (hl : l ≠ '_') (hr : r ≠ '_')
    (hcs : Separable cs) (h : InsertsPlain results (l :: cs ++ [r])) : InsertsPlain results cs := by
  have hend := separable_singleton hr
  exact (InsertsPlain.of_append hcs hend (InsertsPlain.of_cons hl (hcs.append hend) h)).1

/-- **A document** reads as it should when what is inserted needs no
    escapes. The names of members are filled in as well. -/
theorem derives_expandChars {text : List Char} {node : Node}
    (h : Derives (Filled results) (Filled results) text node)
    (hplain : InsertsPlain results text) :
    Derives Decodes Decodes (expandChars results text) node := by
  induction h with
  | null =>
    rw [expandChars_of_not_mem (by decide)]
    exact .null
  | false =>
    rw [expandChars_of_not_mem (by decide)]
    exact .false
  | true =>
    rw [expandChars_of_not_mem (by decide)]
    exact .true
  | number hnumber =>
    rw [expandChars_of_not_mem (number_not_mem hnumber)]
    exact .number hnumber
  | string hraw =>
    rw [expandChars_literal]
    exact .string (hraw.decodes hplain.of_literal)
  | noItems hw =>
    rw [expandChars_enclosed (by decide) (by decide) (separable_whitespace hw),
      expandChars_of_not_mem (hw.not_mem (by decide))]
    exact .noItems hw
  | array htext ih =>
    have hsep := separable_of_derives htext
    rw [expandChars_enclosed (by decide) (by decide) hsep]
    exact .array (ih (hplain.of_enclosed (by decide) (by decide) hsep))
  | noMembers hw =>
    rw [expandChars_enclosed (by decide) (by decide) (separable_whitespace hw),
      expandChars_of_not_mem (hw.not_mem (by decide))]
    exact .noMembers hw
  | object htext ih =>
    have hsep := separable_of_derives htext
    rw [expandChars_enclosed (by decide) (by decide) hsep]
    exact .object (ih (hplain.of_enclosed (by decide) (by decide) hsep))
  | item hw htext hw' ih =>
    have hsep := separable_of_derives htext
    have hfront := separable_whitespace hw
    have hback := separable_whitespace hw'
    rw [(hfront.append hsep).expandChars_append hback, hfront.expandChars_append hsep,
      expandChars_of_not_mem (hw.not_mem (by decide)),
      expandChars_of_not_mem (hw'.not_mem (by decide))]
    obtain ⟨hplain, -⟩ := hplain.of_append (hfront.append hsep) hback
    exact .item hw (ih (hplain.of_append hfront hsep).2) hw'
  | lastItem _ ih => exact .lastItem (ih hplain)
  | items htext htext' ih ih' =>
    have hsep := separable_of_derives htext
    have hsep' := separable_of_derives htext'
    have hcomma : ',' ≠ '_' := by decide
    obtain ⟨hleft, hright⟩ := hplain.of_append hsep (hsep'.cons hcomma)
    rw [hsep.expandChars_append (hsep'.cons hcomma), hsep'.expandChars_cons hcomma]
    exact .items (ih hleft) (ih' (hright.of_cons hcomma hsep'))
  | @member w raw s w' text j hw hname hw' htext ih =>
    have hsep := separable_of_derives htext
    have hcolon : ':' ≠ '_' := by decide
    have hfront := separable_whitespace hw
    have hback := separable_whitespace hw'
    have hquoted := hfront.append (separable_literal raw)
    rw [(hquoted.append hback).expandChars_append (hsep.cons hcolon),
      hquoted.expandChars_append hback, hfront.expandChars_append (separable_literal raw),
      hsep.expandChars_cons hcolon, expandChars_literal,
      expandChars_of_not_mem (hw.not_mem (by decide)),
      expandChars_of_not_mem (hw'.not_mem (by decide))]
    -- the name and the value are filled in apart
    obtain ⟨hleft, hright⟩ := hplain.of_append (hquoted.append hback) (hsep.cons hcolon)
    obtain ⟨hleft, -⟩ := hleft.of_append hquoted hback
    have hliteral := (hleft.of_append hfront (separable_literal raw)).2
    exact .member hw (hname.decodes hliteral.of_literal) hw' (ih (hright.of_cons hcolon hsep))
  | lastMember _ ih => exact .lastMember (ih hplain)
  | members htext htext' ih ih' =>
    have hsep := separable_of_derives htext
    have hsep' := separable_of_derives htext'
    have hcomma : ',' ≠ '_' := by decide
    obtain ⟨hleft, hright⟩ := hplain.of_append hsep (hsep'.cons hcomma)
    rw [hsep.expandChars_append (hsep'.cons hcomma), hsep'.expandChars_cons hcomma]
    exact .members (ih hleft) (ih' (hright.of_cons hcomma hsep'))

/-! ### Which Documents Are Templates -/

theorem inserted_of_some {digits : List Char} {result : String}
    (h : results (nodeId digits) = some result) : inserted results digits = result.toList := by
  rw [inserted, Piece.expand, h]

theorem inserted_of_none {digits : List Char} (h : results (nodeId digits) = none) :
    inserted results digits = placeholder digits := by
  rw [inserted, Piece.expand, h]

/-- Every string can be read with its placeholders replaced. -/
theorem filled_of_decodes (results : ℕ → Option String) {raw s : List Char} (h : Decodes raw s) :
    ∃ s', Filled results raw s' ∧
      ((∀ digits, .node digits ∈ piecesFrom 0 raw → results (nodeId digits) = none) → s' = s) := by
  generalize hlen : raw.length = len
  induction len using Nat.strong_induction_on generalizing raw s with
  | _ len ih =>
    cases hmatch : matchFront raw with
    | some digits =>
      obtain ⟨hne, hdigits, rest, rfl⟩ := matchFront_eq_some_iff.mp hmatch
      have hpos := placeholder_length_pos digits
      rw [List.length_append] at hlen
      -- a placeholder has no escapes: its characters are read as they stand
      obtain ⟨s₁, rfl, hrest⟩ := Decodes.of_plain_append (placeholder_plain hdigits) h
      obtain ⟨s₂, hs₂, hsame⟩ := ih rest.length (by omega) hrest rfl
      refine ⟨_, .node hne hdigits hs₂, fun hnone => ?_⟩
      rw [piecesFrom_placeholder hne hdigits] at hnone
      rw [inserted_of_none (hnone digits List.mem_cons_self),
        hsame fun ds hds => hnone ds (List.mem_cons_of_mem _ hds)]
    | none =>
      cases h with
      | nil => exact ⟨[], .nil, fun _ => rfl⟩
      | @cons u c rest s₁ hchar hrest =>
        have hpos := hchar.length_pos
        rw [List.length_append] at hlen
        obtain ⟨s₂, hs₂, hsame⟩ := ih rest.length (by omega) hrest rfl
        refine ⟨_, .char hchar hmatch hs₂, fun hnone => ?_⟩
        rw [piecesFrom_char hchar hmatch] at hnone
        rw [hsame fun ds hds => hnone ds (List.mem_append_right _ hds)]

/-- A name without placeholders of completed nodes stays. -/
theorem KeptName.filled {raw s : List Char} (h : KeptName results raw s) :
    Filled results raw s := by
  obtain ⟨s', hs', hsame⟩ := filled_of_decodes results h.1
  exact hsame h.2 ▸ hs'

theorem decodes_of_filled {raw s : List Char} (h : Filled results raw s) :
    ∃ s', Decodes raw s' ∧ ((∀ n, results n = none) → s' = s) := by
  induction h with
  | nil => exact ⟨[], .nil, fun _ => rfl⟩
  | @node digits raw s _ hdigits _ ih =>
    obtain ⟨s', hs', hsame⟩ := ih
    refine ⟨_, (decodes_of_plain (placeholder_plain hdigits)).append hs', fun hnone => ?_⟩
    rw [hsame hnone, inserted_of_none (hnone _)]
  | char hchar _ _ ih =>
    obtain ⟨s', hs', hsame⟩ := ih
    exact ⟨_, .cons hchar hs', fun hnone => by rw [hsame hnone]⟩

/-- **Templates** are the documents without placeholders of completed nodes
    in their names. -/
theorem exists_template_iff (results : ℕ → Option String) (text : String) :
    (∃ j, Template results text j) ↔
      ∃ j, Derives (KeptName results) Decodes text.toList (.item j) := by
  constructor
  · rintro ⟨j, h⟩
    refine h.reread (fun raw s hs => ⟨s, hs⟩) fun raw s hs => ?_
    obtain ⟨s', hs', -⟩ := decodes_of_filled hs
    exact ⟨s', hs'⟩
  · rintro ⟨j, h⟩
    refine h.reread (fun raw s hs => ⟨s, hs⟩) fun raw s hs => ?_
    obtain ⟨s', hs', -⟩ := filled_of_decodes results hs
    exact ⟨s', hs'⟩

/-- Without results a template denotes what it denotes as a document. -/
theorem template_none_iff (text : String) (j : Json) :
    Template (fun _ => none) text j ↔ Document text j := by
  have hname : KeptName (fun _ => none) = Decodes := by
    funext raw s
    exact propext (and_iff_left fun _ _ => rfl)
  have hstring : Filled (fun _ => none) = Decodes := by
    funext raw s
    refine propext ⟨fun h => ?_, fun h => ?_⟩
    · obtain ⟨s', hs', hsame⟩ := decodes_of_filled h
      exact hsame (fun _ => rfl) ▸ hs'
    · obtain ⟨s', hs', hsame⟩ := filled_of_decodes (fun _ => none) h
      exact hsame (fun _ _ => rfl) ▸ hs'
  unfold Template Document
  rw [hname, hstring]

/-! ### Which Results Need No Escapes -/

theorem mem_piecesFrom_node {digits : List Char} (cs : List Char) :
    ∀ skip, .node digits ∈ piecesFrom skip cs → digits ≠ [] ∧ ∀ d ∈ digits, d.isDigit := by
  induction cs with
  | nil =>
    intro skip hmem
    cases hmem
  | cons c cs ih =>
    intro skip hmem
    cases skip with
    | succ skip => exact ih skip hmem
    | zero =>
      cases hmatch : matchFront (c :: cs) with
      | none =>
        rw [piecesFrom_of_none hmatch] at hmem
        obtain heq | hmem := List.mem_cons.mp hmem
        · cases heq
        · exact ih 0 hmem
      | some digits' =>
        rw [piecesFrom_of_some hmatch] at hmem
        obtain heq | hmem := List.mem_cons.mp hmem
        · cases heq
          obtain ⟨hne, hdigits, -⟩ := matchFront_eq_some_iff.mp hmatch
          exact ⟨hne, hdigits⟩
        · exact ih _ hmem

/-- Every number has its digits. -/
theorem exists_digits (n : ℕ) :
    ∃ digits, digits ≠ [] ∧ (∀ d ∈ digits, d.isDigit) ∧ nodeId digits = n := by
  have hdigit : ∀ k < 10, (Nat.digitChar k).isDigit ∧ (Nat.digitChar k).toNat - '0'.toNat = k := by
    decide
  induction n using Nat.strong_induction_on with
  | _ n ih =>
    obtain ⟨hd, hvalue⟩ := hdigit (n % 10) (Nat.mod_lt _ (by decide))
    by_cases hsmall : n < 10
    · refine ⟨[Nat.digitChar (n % 10)], by simp, by simpa using hd, ?_⟩
      rw [nodeId, List.foldl_cons, List.foldl_nil, hvalue]
      omega
    · obtain ⟨digits, -, hdigits, hnode⟩ := ih (n / 10) (by omega)
      refine ⟨digits ++ [Nat.digitChar (n % 10)], by simp, ?_, ?_⟩
      · intro d hmem
        obtain hmem | hmem := List.mem_append.mp hmem
        · exact hdigits d hmem
        · rwa [List.mem_singleton.mp hmem]
      · rw [nodeId] at hnode ⊢
        rw [List.foldl_append, hnode, List.foldl_cons, List.foldl_nil, hvalue]
        omega

theorem insertsPlain_of_named {text : String} {nodes : Set ℕ}
    (hnamed : ∀ n ∈ named text, n ∈ nodes ∧ n < 2 ^ 64)
    (hresults : ∀ n ∈ nodes, n < 2 ^ 64 → ∀ result, results n = some result →
      ∀ c ∈ result.toList, isPlain c) : InsertsPlain results text.toList := by
  intro digits hmem
  obtain ⟨-, hdigits⟩ := mem_piecesFrom_node text.toList 0 hmem
  obtain ⟨hnode, hlt⟩ := hnamed _ (List.mem_filterMap.mpr ⟨_, hmem, rfl⟩)
  cases hresult : results (nodeId digits) with
  | none =>
    rw [inserted_of_none hresult]
    exact placeholder_plain hdigits
  | some result =>
    rw [inserted_of_some hresult]
    exact hresults _ hnode hlt result hresult

theorem filled_placeholder {digits : List Char} (hne : digits ≠ [])
    (hdigits : ∀ d ∈ digits, d.isDigit) :
    Filled results (placeholder digits) (inserted results digits) := by
  have hnode := Filled.node hne hdigits (.nil : Filled results [] [])
  rwa [List.append_nil, List.append_nil] at hnode

/-- The document that is nothing but a placeholder. -/
theorem template_placeholder (results : ℕ → Option String) {digits : List Char}
    (hne : digits ≠ []) (hdigits : ∀ d ∈ digits, d.isDigit) :
    Template results (String.ofList ('"' :: placeholder digits ++ ['"']))
      (.string (String.ofList (inserted results digits))) := by
  have hspace : IsWhitespace [] := fun c hc => absurd hc List.not_mem_nil
  have hfilled : Filled results _ _ := filled_placeholder hne hdigits
  have hitem := Derives.item hspace (.string hfilled : Derives (KeptName results) _ _ _) hspace
  rw [List.nil_append, List.append_nil] at hitem
  unfold Template
  rwa [String.toList_ofList]

theorem pieces_placeholder {digits : List Char} (hne : digits ≠ [])
    (hdigits : ∀ d ∈ digits, d.isDigit) :
    pieces (String.ofList ('"' :: placeholder digits ++ ['"'])) =
      [.char '"', .node digits, .char '"'] := by
  have hpieces := piecesFrom_literal [] (placeholder digits) []
  have hnode := piecesFrom_placeholder hne hdigits []
  rw [List.append_nil] at hnode
  rw [List.nil_append, hnode] at hpieces
  rw [pieces, String.toList_ofList, List.cons_append, hpieces]
  rfl

/-- **Arguments** that are a document with placeholders become the document
    with the results in its strings, whatever the document, if and only if
    the results contain only characters that stand for themselves in a
    string. -/
theorem arguments_filled_iff (results : ℕ → Option String) (nodes : Set ℕ) :
    (∀ text j, Template results text j → (∀ n ∈ named text, n ∈ nodes ∧ n < 2 ^ 64) →
      ∃ output, substitute text results = some output ∧ Document output j) ↔
    ∀ n ∈ nodes, n < 2 ^ 64 → ∀ result, results n = some result →
      ∀ c ∈ result.toList, isPlain c := by
  constructor
  · intro h n hn hlt result hresult
    -- the document that is nothing but a placeholder of the node
    obtain ⟨digits, hne, hdigits, rfl⟩ := exists_digits n
    have hpieces := pieces_placeholder hne hdigits
    have hnamed : ∀ n ∈ named (String.ofList ('"' :: placeholder digits ++ ['"'])),
        n ∈ nodes ∧ n < 2 ^ 64 := by
      rw [named, hpieces]
      intro n hmem
      obtain rfl := List.mem_singleton.mp hmem
      exact ⟨hn, hlt⟩
    obtain ⟨output, hsome, hdoc⟩ := h _ _ (template_placeholder results hne hdigits) hnamed
    -- the literal now holds the result as it is
    have houtput : output.toList = '"' :: result.toList ++ ['"'] := by
      rw [substitute_eq, if_pos (fits_of_named fun n hn => (hnamed n hn).2)] at hsome
      rw [← Option.some.inj hsome, expand, hpieces, String.toList_ofList]
      simp [Piece.expand, hresult]
    unfold Document at hdoc
    rw [houtput, inserted_of_some hresult] at hdoc
    -- its text reads as itself, and so it has no escapes
    have hdecodes := hdoc.string_inv
    rw [String.toList_ofList] at hdecodes
    exact hdecodes.plain le_rfl
  · intro hresults text j htemplate hnamed
    refine ⟨expand text results, ?_, ?_⟩
    · rw [substitute_eq, if_pos (fits_of_named fun n hn => (hnamed n hn).2)]
    · unfold Document
      rw [expand_toList]
      have hfilled := htemplate.mono (fun _ _ => KeptName.filled) fun _ _ h => h
      exact derives_expandChars hfilled (insertsPlain_of_named hnamed hresults)

/-- The README's arguments are a template. -/
theorem template_text (results : ℕ → Option String) :
    Template results "\x7b\"text\":\"\x7b\x7bnode_0_result\x7d\x7d\"\x7d"
      (.object [("text", .string (String.ofList (inserted results ['0'])))]) := by
  have hspace : IsWhitespace [] := fun c hc => absurd hc List.not_mem_nil
  have hname : KeptName results "text".toList "text".toList := by
    refine ⟨decodes_of_plain (List.all_eq_true.mp (by decide)), fun digits hmem => ?_⟩
    rw [piecesFrom_of_not_mem (by decide)] at hmem
    obtain ⟨c, -, hc⟩ := List.mem_map.mp hmem
    cases hc
  have hfilled : Filled results (placeholder ['0']) (inserted results ['0']) :=
    filled_placeholder (by simp) (List.all_eq_true.mp (by decide))
  have hvalue := Derives.item hspace (.string hfilled : Derives (KeptName results) _ _ _) hspace
  have hmember := Derives.member hspace hname hspace hvalue
  exact Derives.item hspace (.object (.lastMember hmember)) hspace

/-- A quotation mark in the result of the node leaves no document. -/
theorem quote_breaks_arguments :
    ¬ ∀ (results : ℕ → Option String) text j, Template results text j →
      ∃ output, substitute text results = some output ∧ Document output j := by
  intro hall
  obtain ⟨output, hsome, hdoc⟩ := hall (fun n => if n = 0 then some "\"" else none) _ _
    (template_text _)
  have hsubst : substitute "\x7b\"text\":\"\x7b\x7bnode_0_result\x7d\x7d\"\x7d"
      (fun n => if n = 0 then some "\"" else none) = some "\x7b\"text\":\"\"\"\x7d" := by decide
  rw [hsubst] at hsome
  obtain rfl := Option.some.inj hsome
  have heven := hdoc.even_quotes (by decide)
  revert heven
  decide

end TaskDAG

end Forge
