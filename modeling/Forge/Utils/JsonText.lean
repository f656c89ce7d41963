import Forge.Utils.Json

/-! # JSON Texts

  The texts that are JSON documents, and the values they denote, as the
  grammar of JSON (RFC 8259) gives them: `Derives` has a case for each of its
  productions.

  How the text of a string is read is left open, for the names of members
  and for values apart: `Document` reads both with their escapes,
  `Decodes`.
-/

namespace Forge

namespace JsonText

/-! ### Strings -/

/-- A character that stands for itself in a string. -/
def isPlain (c : Char) : Bool := c ≠ '"' ∧ c ≠ '\\' ∧ 0x20 ≤ c.toNat

/-- The escapes of two characters, without the backslash. -/
def simpleEscape : Char → Option Char
  | '"' => some '"'
  | '\\' => some '\\'
  | '/' => some '/'
  | 'b' => some '\x08'
  | 'f' => some '\x0c'
  | 'n' => some '\n'
  | 'r' => some '\r'
  | 't' => some '\t'
  | _ => none

def isHex (c : Char) : Bool := c.isDigit || ('a' ≤ c && c ≤ 'f') || ('A' ≤ c && c ≤ 'F')

def hexValue (c : Char) : ℕ :=
  if c.isDigit then c.toNat - '0'.toNat else c.toLower.toNat - 'a'.toNat + 10

/-- The four digits of an escape `\uXXXX`. -/
def IsHex4 (ds : List Char) : Prop := ds.length = 4 ∧ ∀ d ∈ ds, isHex d

def hexNumber (ds : List Char) : ℕ := ds.foldl (fun n d => 16 * n + hexValue d) 0

/-- A character of a string, as it is written. -/
inductive StringChar : List Char → Char → Prop where
  | plain {c} : isPlain c → StringChar [c] c
  | escape {e c} : simpleEscape e = some c → StringChar ['\\', e] c
  | unicode {ds} : IsHex4 ds → (hexNumber ds).isValidChar →
      StringChar ('\\' :: 'u' :: ds) (Char.ofNat (hexNumber ds))
  /-- Above U+FFFF: the two halves of a surrogate pair. -/
  | surrogates {hi lo} : IsHex4 hi → IsHex4 lo →
      0xd800 ≤ hexNumber hi → hexNumber hi < 0xdc00 →
      0xdc00 ≤ hexNumber lo → hexNumber lo < 0xe000 →
      StringChar ('\\' :: 'u' :: hi ++ '\\' :: 'u' :: lo)
        (Char.ofNat (0x10000 + (hexNumber hi - 0xd800) * 0x400 + (hexNumber lo - 0xdc00)))

/-- The text between the quotation marks, and what it reads. -/
inductive Decodes : List Char → List Char → Prop where
  | nil : Decodes [] []
  | cons {u c raw s} : StringChar u c → Decodes raw s → Decodes (u ++ raw) (c :: s)

/-- A character that escapes are written with. -/
def isEscape (c : Char) : Bool := isHex c || c ∈ ['\\', '"', '/', 'b', 'f', 'n', 'r', 't', 'u']

theorem isEscape_of_isHex {c : Char} (h : isHex c) : isEscape c := by
  simp [isEscape, h]

theorem isEscape_of_simpleEscape {e c : Char} (h : simpleEscape e = some c) : isEscape e := by
  unfold simpleEscape at h
  split at h <;> first | decide | cases h

/-- A character of a string stands for itself, or it is an escape. -/
theorem StringChar.plain_or_escape {u : List Char} {c : Char} (h : StringChar u c) :
    (u = [c] ∧ isPlain c) ∨ (2 ≤ u.length ∧ ∀ x ∈ u, isEscape x) := by
  cases h with
  | plain hplain => exact Or.inl ⟨rfl, hplain⟩
  | escape hescape =>
    refine Or.inr ⟨le_rfl, ?_⟩
    intro x hx
    simp only [List.mem_cons, List.not_mem_nil, or_false] at hx
    obtain rfl | rfl := hx
    · decide
    · exact isEscape_of_simpleEscape hescape
  | unicode hds _ =>
    refine Or.inr ⟨by simp, ?_⟩
    intro x hx
    simp only [List.mem_cons] at hx
    obtain rfl | rfl | hx := hx
    · decide
    · decide
    · exact isEscape_of_isHex (hds.2 x hx)
  | surrogates hhi hlo =>
    refine Or.inr ⟨by simp, ?_⟩
    intro x hx
    simp only [List.cons_append, List.mem_cons, List.mem_append] at hx
    obtain rfl | rfl | hx | rfl | rfl | hx := hx
    · decide
    · decide
    · exact isEscape_of_isHex (hhi.2 x hx)
    · decide
    · decide
    · exact isEscape_of_isHex (hlo.2 x hx)

theorem isPlain_of_isDigit {c : Char} (h : c.isDigit) : isPlain c := by
  refine decide_eq_true ⟨?_, ?_, ?_⟩
  · rintro rfl
    revert h
    decide
  · rintro rfl
    revert h
    decide
  · simp only [Char.isDigit, Bool.and_eq_true, decide_eq_true_eq] at h
    exact le_trans (by decide) (UInt32.le_iff_toNat_le.mp h.1)

theorem Decodes.append {raw raw' s s' : List Char} (h : Decodes raw s) (h' : Decodes raw' s') :
    Decodes (raw ++ raw') (s ++ s') := by
  induction h with
  | nil => exact h'
  | cons hchar _ ih =>
    rw [List.append_assoc, List.cons_append]
    exact Decodes.cons hchar ih

theorem decodes_of_plain {text : List Char} (h : ∀ c ∈ text, isPlain c) : Decodes text text := by
  induction text with
  | nil => exact Decodes.nil
  | cons c text ih =>
    exact Decodes.cons (.plain (h c List.mem_cons_self)) (ih fun x hx => h x (.tail c hx))

/-- A text that stands for itself is read character by character. -/
theorem Decodes.of_plain_append {text raw s : List Char} (hplain : ∀ c ∈ text, isPlain c)
    (h : Decodes (text ++ raw) s) : ∃ s', s = text ++ s' ∧ Decodes raw s' := by
  induction text generalizing s with
  | nil => exact ⟨s, rfl, h⟩
  | cons c text ih =>
    have hback : ¬isPlain '\\' := by decide
    -- an escape would begin with a backslash, which is not plain
    generalize htext : (c :: text) ++ raw = whole at h
    cases h with
    | nil => cases htext
    | cons hchar hrest =>
      cases hchar with
      | plain _ =>
        obtain ⟨rfl, rfl⟩ := List.cons.inj htext
        obtain ⟨s', rfl, hs'⟩ := ih (fun x hx => hplain x (.tail c hx)) hrest
        exact ⟨s', rfl, hs'⟩
      | escape _ | unicode _ _ | surrogates _ _ _ _ _ _ =>
        obtain ⟨rfl, -⟩ := List.cons.inj htext
        exact absurd (hplain _ List.mem_cons_self) hback

theorem StringChar.length_pos {u : List Char} {c : Char} (h : StringChar u c) : 1 ≤ u.length := by
  obtain ⟨rfl, -⟩ | ⟨htwo, -⟩ := h.plain_or_escape
  · exact le_rfl
  · omega

theorem Decodes.length_le {raw s : List Char} (h : Decodes raw s) : s.length ≤ raw.length := by
  induction h with
  | nil => exact le_rfl
  | cons hchar _ ih =>
    have hone := hchar.length_pos
    simp only [List.length_cons, List.length_append]
    omega

/-- Only a text without escapes is as long as what it reads. -/
theorem Decodes.plain {raw s : List Char} (h : Decodes raw s) (hlen : raw.length ≤ s.length) :
    ∀ c ∈ raw, isPlain c := by
  induction h with
  | nil => simp
  | cons hchar hrest ih =>
    have hle := hrest.length_le
    simp only [List.length_cons, List.length_append] at hlen
    obtain ⟨rfl, hplain⟩ | ⟨htwo, -⟩ := hchar.plain_or_escape
    · intro x hx
      -- one character for one: the rest is as long as what it reads
      obtain rfl | hx := List.mem_cons.mp hx
      · exact hplain
      · exact ih (by simp only [List.length_singleton] at hlen; omega) x hx
    · omega

/-! ### Numbers -/

def IsDigits (ds : List Char) : Prop := ds ≠ [] ∧ ∀ d ∈ ds, d.isDigit

/-- No zeros in front. -/
def IsNatural (ds : List Char) : Prop := IsDigits ds ∧ (ds.head? = some '0' → ds = ['0'])

def natural (ds : List Char) : ℕ := ds.foldl (fun n d => 10 * n + (d.toNat - '0'.toNat)) 0

def sign (negative : Bool) : List Char := if negative then ['-'] else []

/-- The fraction and its digits. -/
inductive Fraction : List Char → List Char → Prop where
  | none : Fraction [] []
  | digits {ds} : IsDigits ds → Fraction ('.' :: ds) ds

/-- The exponent and its value. -/
inductive Exponent : List Char → ℤ → Prop where
  | none : Exponent [] 0
  | unsigned {e ds} : e = 'e' ∨ e = 'E' → IsDigits ds → Exponent (e :: ds) (natural ds)
  | plus {e ds} : e = 'e' ∨ e = 'E' → IsDigits ds → Exponent (e :: '+' :: ds) (natural ds)
  | minus {e ds} : e = 'e' ∨ e = 'E' → IsDigits ds → Exponent (e :: '-' :: ds) (-natural ds)

/-- A number is an integer when it has neither a fraction nor an exponent. -/
inductive NumberText : List Char → Json → Prop where
  | int {negative ds} : IsNatural ds →
      NumberText (sign negative ++ ds) (.int (if negative then -natural ds else natural ds))
  | float {negative ds fraction frac exponent e} : IsNatural ds →
      Fraction fraction frac → Exponent exponent e → fraction ++ exponent ≠ [] →
      NumberText (sign negative ++ ds ++ fraction ++ exponent)
        (.float ((if negative then -1 else 1) * natural (ds ++ frac) * 10 ^ (e - frac.length)))

/-- A character that numbers are written with. -/
def isNumeric (c : Char) : Bool :=
  c.isDigit || c = '-' || c = '+' || c = '.' || c = 'e' || c = 'E'

theorem NumberText.isNumeric {text : List Char} {j : Json} (h : NumberText text j) :
    ∀ c ∈ text, isNumeric c := by
  have hdigits : ∀ {ds : List Char}, IsDigits ds → ∀ c ∈ ds, JsonText.isNumeric c := by
    intro ds hds c hc
    simp [JsonText.isNumeric, hds.2 c hc]
  have hsign : ∀ {negative : Bool}, ∀ c ∈ sign negative, JsonText.isNumeric c := by
    intro negative
    cases negative <;> exact List.all_eq_true.mp (by decide)
  cases h with
  | int hnat =>
    intro c hc
    obtain hc | hc := List.mem_append.mp hc
    · exact hsign c hc
    · exact hdigits hnat.1 c hc
  | float hnat hfraction hexponent _ =>
    intro c hc
    simp only [List.mem_append] at hc
    obtain ((hc | hc) | hc) | hc := hc
    · exact hsign c hc
    · exact hdigits hnat.1 c hc
    · cases hfraction with
      | none => cases hc
      | digits hds =>
        obtain rfl | hc := List.mem_cons.mp hc
        · decide
        · exact hdigits hds c hc
    · cases hexponent with
      | none => cases hc
      | unsigned he hds =>
        obtain rfl | hc := List.mem_cons.mp hc
        · obtain rfl | rfl := he <;> decide
        · exact hdigits hds c hc
      | plus he hds =>
        simp only [List.mem_cons] at hc
        obtain rfl | rfl | hc := hc
        · obtain rfl | rfl := he <;> decide
        · decide
        · exact hdigits hds c hc
      | minus he hds =>
        simp only [List.mem_cons] at hc
        obtain rfl | rfl | hc := hc
        · obtain rfl | rfl := he <;> decide
        · decide
        · exact hdigits hds c hc

/-! ### Documents -/

def IsWhitespace (text : List Char) : Prop :=
  ∀ c ∈ text, c = ' ' ∨ c = '\t' ∨ c = '\n' ∨ c = '\r'

/-- What a part of a document denotes: an item is a value with whitespace
    around it. -/
inductive Node where
  | value (j : Json)
  | item (j : Json)
  | items (js : List Json)
  | member (field : String × Json)
  | members (fields : List (String × Json))

/-- The grammar. `name` reads the strings that name members, `string` those
    that are values. -/
inductive Derives (name string : List Char → List Char → Prop) : List Char → Node → Prop where
  | null : Derives name string "null".toList (.value .null)
  | false : Derives name string "false".toList (.value (.bool Bool.false))
  | true : Derives name string "true".toList (.value (.bool Bool.true))
  | number {text j} : NumberText text j → Derives name string text (.value j)
  | string {raw s} : string raw s →
      Derives name string ('"' :: raw ++ ['"']) (.value (.string (String.ofList s)))
  | noItems {w} : IsWhitespace w → Derives name string ('[' :: w ++ [']']) (.value (.array []))
  | array {text js} : Derives name string text (.items js) →
      Derives name string ('[' :: text ++ [']']) (.value (.array js))
  | noMembers {w} : IsWhitespace w →
      Derives name string ('\x7b' :: w ++ ['\x7d']) (.value (.object []))
  | object {text fields} : Derives name string text (.members fields) →
      Derives name string ('\x7b' :: text ++ ['\x7d']) (.value (.object fields))
  | item {w text w' j} : IsWhitespace w → Derives name string text (.value j) → IsWhitespace w' →
      Derives name string (w ++ text ++ w') (.item j)
  | lastItem {text j} : Derives name string text (.item j) → Derives name string text (.items [j])
  | items {text j text' js} : Derives name string text (.item j) →
      Derives name string text' (.items js) →
      Derives name string (text ++ ',' :: text') (.items (j :: js))
  | member {w raw s w' text j} : IsWhitespace w → name raw s → IsWhitespace w' →
      Derives name string text (.item j) →
      Derives name string (w ++ ('"' :: raw ++ ['"']) ++ w' ++ ':' :: text)
        (.member (String.ofList s, j))
  | lastMember {text field} : Derives name string text (.member field) →
      Derives name string text (.members [field])
  | members {text field text' fields} : Derives name string text (.member field) →
      Derives name string text' (.members fields) →
      Derives name string (text ++ ',' :: text') (.members (field :: fields))

/-- The text is a JSON document that denotes the value. -/
def Document (text : String) (j : Json) : Prop := Derives Decodes Decodes text.toList (.item j)

/-! ### Facts about Derivations -/

variable {name string name' string' : List Char → List Char → Prop}

/-- The same part of a document, read in another way. -/
def Rereads (name string : List Char → List Char → Prop) (text : List Char) : Node → Prop
  | .value _ => ∃ j, Derives name string text (.value j)
  | .item _ => ∃ j, Derives name string text (.item j)
  | .items _ => ∃ js, Derives name string text (.items js)
  | .member _ => ∃ field, Derives name string text (.member field)
  | .members _ => ∃ fields, Derives name string text (.members fields)

/-- Which texts are documents depends only on which strings can be read. -/
theorem Derives.reread (hname : ∀ raw s, name raw s → ∃ s', name' raw s')
    (hstring : ∀ raw s, string raw s → ∃ s', string' raw s') {text : List Char} {node : Node}
    (h : Derives name string text node) : Rereads name' string' text node := by
  induction h with
  | null => exact ⟨_, .null⟩
  | false => exact ⟨_, .false⟩
  | true => exact ⟨_, .true⟩
  | number hnumber => exact ⟨_, .number hnumber⟩
  | string hraw =>
    obtain ⟨s', hraw'⟩ := hstring _ _ hraw
    exact ⟨_, .string hraw'⟩
  | noItems hw => exact ⟨_, .noItems hw⟩
  | array _ ih =>
    obtain ⟨js, hjs⟩ := ih
    exact ⟨_, .array hjs⟩
  | noMembers hw => exact ⟨_, .noMembers hw⟩
  | object _ ih =>
    obtain ⟨fields, hfields⟩ := ih
    exact ⟨_, .object hfields⟩
  | item hw _ hw' ih =>
    obtain ⟨j, hj⟩ := ih
    exact ⟨_, .item hw hj hw'⟩
  | lastItem _ ih =>
    obtain ⟨j, hj⟩ := ih
    exact ⟨_, .lastItem hj⟩
  | items _ _ ih ih' =>
    obtain ⟨j, hj⟩ := ih
    obtain ⟨js, hjs⟩ := ih'
    exact ⟨_, .items hj hjs⟩
  | member hw hraw hw' _ ih =>
    obtain ⟨s', hraw'⟩ := hname _ _ hraw
    obtain ⟨j, hj⟩ := ih
    exact ⟨_, .member hw hraw' hw' hj⟩
  | lastMember _ ih =>
    obtain ⟨field, hfield⟩ := ih
    exact ⟨_, .lastMember hfield⟩
  | members _ _ ih ih' =>
    obtain ⟨field, hfield⟩ := ih
    obtain ⟨fields, hfields⟩ := ih'
    exact ⟨_, .members hfield hfields⟩

/-- A reading of the strings may be replaced by another that agrees. -/
theorem Derives.mono (hname : ∀ raw s, name raw s → name' raw s)
    (hstring : ∀ raw s, string raw s → string' raw s) {text : List Char} {node : Node}
    (h : Derives name string text node) : Derives name' string' text node := by
  induction h with
  | null => exact .null
  | false => exact .false
  | true => exact .true
  | number hnumber => exact .number hnumber
  | string hraw => exact .string (hstring _ _ hraw)
  | noItems hw => exact .noItems hw
  | array _ ih => exact .array ih
  | noMembers hw => exact .noMembers hw
  | object _ ih => exact .object ih
  | item hw _ hw' ih => exact .item hw ih hw'
  | lastItem _ ih => exact .lastItem ih
  | items _ _ ih ih' => exact .items ih ih'
  | member hw hraw hw' _ ih => exact .member hw (hname _ _ hraw) hw' ih
  | lastMember _ ih => exact .lastMember ih
  | members _ _ ih ih' => exact .members ih ih'

theorem IsWhitespace.not_mem {w : List Char} (hw : IsWhitespace w) {c : Char}
    (hc : c ∉ [' ', '\t', '\n', '\r']) : c ∉ w := by
  intro hmem
  apply hc
  simpa using hw c hmem

theorem IsWhitespace.count_quote {w : List Char} (hw : IsWhitespace w) : w.count '"' = 0 :=
  List.count_eq_zero.mpr (hw.not_mem (by decide))

theorem NumberText.count_quote {text : List Char} {j : Json} (h : NumberText text j) :
    text.count '"' = 0 := by
  refine List.count_eq_zero.mpr fun hmem => ?_
  have hnumeric := h.isNumeric _ hmem
  revert hnumeric
  decide

/-- A quotation mark in a string is behind a backslash. -/
theorem Decodes.count_quote {raw s : List Char} (h : Decodes raw s) (hescape : '\\' ∉ raw) :
    raw.count '"' = 0 := by
  induction h with
  | nil => rfl
  | cons hchar _ ih =>
    rw [List.mem_append, not_or] at hescape
    rw [List.count_append, ih hescape.2, Nat.add_zero]
    cases hchar with
    | plain hplain =>
      refine List.count_eq_zero.mpr fun hmem => ?_
      obtain rfl := List.mem_singleton.mp hmem
      revert hplain
      decide
    | escape _ => exact absurd List.mem_cons_self hescape.1
    | unicode _ _ => exact absurd List.mem_cons_self hescape.1
    | surrogates _ _ _ _ _ _ => exact absurd List.mem_cons_self hescape.1

/-- **Quotation marks** come in pairs in a document without escapes. -/
theorem Derives.even_quotes {text : List Char} {node : Node}
    (h : Derives Decodes Decodes text node) (hescape : '\\' ∉ text) :
    text.count '"' % 2 = 0 := by
  induction h with
  | null => rfl
  | false => rfl
  | true => rfl
  | number hnumber => rw [hnumber.count_quote]
  | string hraw =>
    have hnone := hraw.count_quote fun hmem => hescape (by simp [hmem])
    simp [List.count_append, hnone]
  | noItems hw => simp [List.count_append, hw.count_quote]
  | array _ ih =>
    have heven := ih fun hmem => hescape (by simp [hmem])
    simpa [List.count_cons, List.count_append] using heven
  | noMembers hw => simp [List.count_append, hw.count_quote]
  | object _ ih =>
    have heven := ih fun hmem => hescape (by simp [hmem])
    simpa [List.count_cons, List.count_append] using heven
  | item hw _ hw' ih =>
    have heven := ih fun hmem => hescape (by simp [hmem])
    simpa [List.count_append, hw.count_quote, hw'.count_quote] using heven
  | lastItem _ ih => exact ih hescape
  | items _ _ ih ih' =>
    have heven := ih fun hmem => hescape (by simp [hmem])
    have heven' := ih' fun hmem => hescape (by simp [hmem])
    simp [List.count_append, Nat.add_mod, heven, heven']
  | member hw hraw hw' _ ih =>
    have hnone := hraw.count_quote fun hmem => hescape (by simp [hmem])
    have heven := ih fun hmem => hescape (by simp [hmem])
    simp [List.count_append, hnone, hw.count_quote, hw'.count_quote, Nat.add_mod, heven]
  | lastMember _ ih => exact ih hescape
  | members _ _ ih ih' =>
    have heven := ih fun hmem => hescape (by simp [hmem])
    have heven' := ih' fun hmem => hescape (by simp [hmem])
    simp [List.count_append, Nat.add_mod, heven, heven']

/-- A document that is a string, between its quotation marks. -/
theorem Derives.string_inv {raw : List Char} {s : String}
    (h : Derives name string ('"' :: raw ++ ['"']) (.item (.string s))) : string raw s.toList := by
  -- numbers and strings are the texts that could denote a string
  generalize htext : '"' :: raw ++ ['"'] = text at h
  cases h with
  | item hw hvalue hw' =>
    cases hvalue with
    | number hnumber => cases hnumber
    | @string raw' s' hraw =>
      rename_i w w'
      -- no whitespace in front
      have hfront : w = [] := by
        cases w with
        | nil => rfl
        | cons c w =>
          simp only [List.cons_append, List.cons.injEq] at htext
          exact absurd (htext.1 ▸ List.mem_cons_self) (hw.not_mem (c := '"') (by decide))
      -- and none behind
      have hback : w' = [] := by
        rcases List.eq_nil_or_concat' w' with hnil | ⟨init, c, hconcat⟩
        · exact hnil
        · rw [hconcat, ← List.append_assoc] at htext
          have hlast := (List.append_inj' htext rfl).2
          refine absurd ?_ (hw'.not_mem (c := '"') (by decide))
          rw [hconcat, ← hlast]
          simp
      subst hfront hback
      have heq : raw = raw' := by simpa using htext
      rwa [heq, String.toList_ofList]

end JsonText

end Forge
