import Forge.Utils.JsonWidth

/-! # Tracing

  `Span` (`utils/tracing.h`). A span writes itself into the log when it is
  destroyed. Its texts are put between quotation marks as they are.

  - `line_document_iff`: the line is the JSON document of the span exactly
    if none of the texts has a character that JSON escapes.
-/

namespace Forge

open JsonText

structure SpanContext where
  traceId : ℕ := 0
  spanId : ℕ := 0
  parentSpanId : ℕ := 0
  deriving DecidableEq

/-- A span; the time it has started is left out. -/
structure Span where
  ctx : SpanContext
  operation : String
  /-- In the order of their insertion. The source has an `unordered_map`,
      which goes through them in an order of its own. -/
  attributes : List (String × String) := []
  ok : Bool := true
  statusMessage : String := ""
  deriving DecidableEq

namespace Span

/-- The constructor; the counter has given `id`. -/
def new (id traceId : ℕ) (operation : String) : Span where
  ctx := ⟨traceId, id, 0⟩
  operation := operation

/-- `attributes_[key] = value` -/
def setAttribute (s : Span) (key value : String) : Span :=
  if s.attributes.any (·.1 = key) then
    { s with attributes := s.attributes.map fun a => if a.1 = key then (key, value) else a }
  else { s with attributes := s.attributes ++ [(key, value)] }

def setIntAttribute (s : Span) (key : String) (value : ℤ) : Span :=
  s.setAttribute key (toString value)

def setStatus (s : Span) (ok : Bool) (message : String) : Span :=
  { s with ok := ok, statusMessage := message }

/-- Create a child span. It is made where it is returned to, so that only
    one span is destroyed. -/
def child (s : Span) (id : ℕ) (operation : String) : Span :=
  { new id s.ctx.traceId operation with ctx := ⟨s.ctx.traceId, id, s.ctx.spanId⟩ }

@[simp] theorem ctx_setAttribute (s : Span) (key value : String) :
    (s.setAttribute key value).ctx = s.ctx := by
  unfold setAttribute
  split <;> rfl

@[simp] theorem ctx_setIntAttribute (s : Span) (key : String) (value : ℤ) :
    (s.setIntAttribute key value).ctx = s.ctx := ctx_setAttribute s key _

@[simp] theorem ctx_setStatus (s : Span) (ok : Bool) (message : String) :
    (s.setStatus ok message).ctx = s.ctx := rfl

/-! ### The Line -/

/-- The loop of the destructor. -/
def attributeText (first : Bool) : List (String × String) → String
  | [] => ""
  | (k, v) :: attributes =>
      (if first then "" else ",") ++ ("\"" ++ k ++ "\":\"" ++ v ++ "\"") ++
        attributeText false attributes

/-- What `~Span` logs; the span has taken `dur` microseconds. -/
def line (s : Span) (dur : ℕ) : String :=
  "\x7b\"trace_id\":" ++ toString s.ctx.traceId ++
    ",\"span_id\":" ++ toString s.ctx.spanId ++
    ",\"parent\":" ++ toString s.ctx.parentSpanId ++
    ",\"op\":\"" ++ s.operation ++
    "\",\"dur_us\":" ++ toString dur ++
    ",\"ok\":" ++ (if s.ok then "true" else "false") ++
    ",\"status\":\"" ++ s.statusMessage ++
    "\",\"attrs\":" ++ ("\x7b" ++ attributeText true s.attributes ++ "\x7d") ++ "\x7d"

/-- What the line is meant to say. -/
def toJson (s : Span) (dur : ℕ) : Json :=
  .object [("trace_id", .int s.ctx.traceId), ("span_id", .int s.ctx.spanId),
    ("parent", .int s.ctx.parentSpanId), ("op", .string s.operation), ("dur_us", .int dur),
    ("ok", .bool s.ok), ("status", .string s.statusMessage),
    ("attrs", .object (s.attributes.map fun a => (a.1, .string a.2)))]

/-- A string without escapes. -/
def quote (s : String) : List Char := '"' :: s.toList ++ ['"']

/-- The members of an object, one behind the other. -/
def writeMembers : List (String × List Char) → List Char
  | [] => []
  | [(name, text)] => quote name ++ ':' :: text
  | (name, text) :: members => quote name ++ ':' :: text ++ ',' :: writeMembers members

def writeObject (members : List (String × List Char)) : List Char :=
  '\x7b' :: writeMembers members ++ ['\x7d']

theorem toList_attributeText (attributes : List (String × String)) :
    (attributeText true attributes).toList =
      writeMembers (attributes.map fun a => (a.1, quote a.2)) := by
  have hquote : "\"".toList = ['"'] := rfl
  have hcolon : "\":\"".toList = ['"', ':', '"'] := rfl
  -- behind the first attribute every one has its comma
  have hrest : ∀ a attributes, (attributeText false (a :: attributes)).toList =
      ',' :: writeMembers ((a :: attributes).map fun a => (a.1, quote a.2)) := by
    intro a attributes
    induction attributes generalizing a with
    | nil => simp [attributeText, writeMembers, quote, hquote, hcolon]
    | cons b attributes ih =>
      rw [attributeText, String.toList_append, ih]
      simp [writeMembers, quote, hquote, hcolon]
  cases attributes with
  | nil => rfl
  | cons a attributes =>
    rw [attributeText, String.toList_append]
    cases attributes with
    | nil => simp [attributeText, writeMembers, quote, hquote, hcolon]
    | cons b attributes =>
      rw [hrest]
      simp [writeMembers, quote, hquote, hcolon]

theorem toList_line (s : Span) (dur : ℕ) : (s.line dur).toList =
    writeObject [("trace_id", Nat.toDigits 10 s.ctx.traceId),
      ("span_id", Nat.toDigits 10 s.ctx.spanId), ("parent", Nat.toDigits 10 s.ctx.parentSpanId),
      ("op", quote s.operation), ("dur_us", Nat.toDigits 10 dur),
      ("ok", if s.ok then "true".toList else "false".toList), ("status", quote s.statusMessage),
      ("attrs", writeObject (s.attributes.map fun a => (a.1, quote a.2)))] := by
  -- the literals, cut where a name or a text begins and ends
  have htrace : "\x7b\"trace_id\":".toList = '\x7b' :: '"' :: "trace_id".toList ++ ['"', ':'] := rfl
  have hspan : ",\"span_id\":".toList = ',' :: '"' :: "span_id".toList ++ ['"', ':'] := rfl
  have hparent : ",\"parent\":".toList = ',' :: '"' :: "parent".toList ++ ['"', ':'] := rfl
  have hop : ",\"op\":\"".toList = ',' :: '"' :: "op".toList ++ ['"', ':', '"'] := rfl
  have hdur : "\",\"dur_us\":".toList = '"' :: ',' :: '"' :: "dur_us".toList ++ ['"', ':'] := rfl
  have hok : ",\"ok\":".toList = ',' :: '"' :: "ok".toList ++ ['"', ':'] := rfl
  have hstatus : ",\"status\":\"".toList = ',' :: '"' :: "status".toList ++ ['"', ':', '"'] := rfl
  have hattrs : "\",\"attrs\":".toList = '"' :: ',' :: '"' :: "attrs".toList ++ ['"', ':'] := rfl
  have hopen : "\x7b".toList = ['\x7b'] := rfl
  have hclose : "\x7d".toList = ['\x7d'] := rfl
  have hbool : (if s.ok then "true" else "false").toList =
      if s.ok then "true".toList else "false".toList := by cases s.ok <;> rfl
  unfold line
  simp only [String.toList_append]
  simp only [htrace, hspan, hparent, hop, hdur, hok, hstatus, hattrs, hopen, hclose, hbool,
    toList_attributeText, Nat.toString_eq_repr, Nat.toList_repr, writeObject, writeMembers, quote,
    List.append_assoc, List.cons_append, List.nil_append]

/-! ### When It Is a Document -/

/-- None of the texts has a character that is escaped in JSON. -/
def Plain (s : Span) : Prop :=
  JsonText.Plain s.operation ∧ JsonText.Plain s.statusMessage ∧
    ∀ a ∈ s.attributes, JsonText.Plain a.1 ∧ JsonText.Plain a.2

/-- The texts of some members are those of some values. -/
def Writes (text : List Char) (j : Json) : Prop := Derives Decodes Decodes text (.value j)

theorem writes_quote {s : String} (hs : JsonText.Plain s) : Writes (quote s) (.string s) := by
  have h := @Derives.string Decodes Decodes _ _ (decodes_of_plain hs)
  rwa [String.ofList_toList] at h

theorem writes_nat (n : ℕ) : Writes (Nat.toDigits 10 n) (.int n) :=
  .number (numberText_writeInt n)

theorem writes_bool (b : Bool) :
    Writes (if b then "true".toList else "false".toList) (.bool b) := by
  cases b
  · exact .false
  · exact .true

theorem writes_member {name : String} {text : List Char} {j : Json} (hname : JsonText.Plain name)
    (htext : Writes text j) :
    Derives Decodes Decodes (quote name ++ ':' :: text) (.member (name, j)) := by
  have hnone : IsWhitespace [] := by simp [IsWhitespace]
  have hitem : Derives Decodes Decodes ([] ++ text ++ []) (.item j) := .item hnone htext hnone
  have h := Derives.member hnone (decodes_of_plain hname) hnone hitem
  simpa [quote] using h

/-- Members that are written one by one are written together. -/
theorem writes_members {members : List (String × List Char)} {fields : List (String × Json)}
    (h : List.Forall₂ (fun m f => m.1 = f.1 ∧ JsonText.Plain m.1 ∧ Writes m.2 f.2) members fields)
    (hne : members ≠ []) : Derives Decodes Decodes (writeMembers members) (.members fields) := by
  induction h with
  | nil => exact absurd rfl hne
  | @cons m f members fields hfirst hrest ih =>
    obtain ⟨name, text⟩ := m
    obtain ⟨name', j⟩ := f
    obtain ⟨rfl, hname, htext⟩ := hfirst
    cases members with
    | nil =>
      cases hrest
      exact .lastMember (writes_member hname htext)
    | cons m members => exact .members (writes_member hname htext) (ih (by simp))

theorem writes_object {members : List (String × List Char)} {fields : List (String × Json)}
    (h : List.Forall₂ (fun m f => m.1 = f.1 ∧ JsonText.Plain m.1 ∧ Writes m.2 f.2) members fields) :
    Writes (writeObject members) (.object fields) := by
  cases h with
  | nil => exact .noMembers (w := []) (by simp [IsWhitespace])
  | cons hfirst hrest => exact .object (writes_members (.cons hfirst hrest) (by simp))

/-- Such a text is as long as it has to be. -/
theorem length_writeMembers {members : List (String × List Char)} {fields : List (String × Json)}
    (h : List.Forall₂ (fun m f => m.1 = f.1 ∧ m.2.length = width f.2) members fields)
    (hne : members ≠ []) : (writeMembers members).length + 1 = membersWidth fields := by
  induction h with
  | nil => exact absurd rfl hne
  | @cons m f members fields hfirst hrest ih =>
    obtain ⟨name, text⟩ := m
    obtain ⟨name', j⟩ := f
    obtain ⟨rfl, hlen⟩ := hfirst
    simp only at hlen
    cases members with
    | nil =>
      cases hrest
      simp only [writeMembers, quote, membersWidth, ← hlen, List.length_append, List.length_cons,
        List.length_nil, String.length_toList]
      omega
    | cons m members =>
      have hmore := ih (by simp)
      simp only [writeMembers, quote, membersWidth, ← hlen, List.length_append, List.length_cons,
        List.length_nil, String.length_toList, ← hmore]
      omega

theorem length_writeObject {members : List (String × List Char)} {fields : List (String × Json)}
    (h : List.Forall₂ (fun m f => m.1 = f.1 ∧ m.2.length = width f.2) members fields) :
    (writeObject members).length = width (.object fields) := by
  cases h with
  | nil => rfl
  | cons hfirst hrest =>
    have hlen := length_writeMembers (.cons hfirst hrest) (by simp)
    simp only [writeObject, width, List.length_append, List.length_cons, List.length_nil, ← hlen]
    omega

theorem length_line (s : Span) (dur : ℕ) : (s.line dur).length = width (s.toJson dur) := by
  have hquote : ∀ t : String, (quote t).length = width (.string t) := by
    intro t
    simp [quote, width, String.length_toList]
  have hbool : (if s.ok then "true".toList else "false".toList).length = width (.bool s.ok) := by
    cases s.ok <;> rfl
  have hattrs : (writeObject (s.attributes.map fun a => (a.1, quote a.2))).length =
      width (.object (s.attributes.map fun a => (a.1, .string a.2))) := by
    apply length_writeObject
    rw [List.forall₂_map_left_iff, List.forall₂_map_right_iff, List.forall₂_same]
    exact fun a _ => ⟨rfl, hquote a.2⟩
  rw [← String.length_toList, toList_line]
  apply length_writeObject
  simp only [List.forall₂_cons, List.forall₂_nil_left_iff, true_and, and_true]
  exact ⟨rfl, rfl, rfl, hquote _, rfl, hbool, hquote _, hattrs⟩

theorem mem_membersStrings {attributes : List (String × String)} {a : String × String}
    (ha : a ∈ attributes) :
    a.1 ∈ membersStrings (attributes.map fun a => (a.1, .string a.2)) ∧
      a.2 ∈ membersStrings (attributes.map fun a => (a.1, .string a.2)) := by
  induction attributes with
  | nil => cases ha
  | cons b attributes ih =>
    simp only [List.map_cons, membersStrings, strings, List.cons_append, List.nil_append,
      List.mem_cons]
    obtain rfl | hrest := List.mem_cons.mp ha
    · exact ⟨.inl rfl, .inr (.inl rfl)⟩
    · exact ⟨.inr (.inr (ih hrest).1), .inr (.inr (ih hrest).2)⟩

/-- **The log line of a span is the document of the span exactly if none of
    its texts has a character that JSON escapes.** -/
theorem line_document_iff (s : Span) (dur : ℕ) :
    Document (s.line dur) (s.toJson dur) ↔ s.Plain := by
  constructor
  · intro h
    have hplain := plain_of_document h (length_line s dur).le
    simp only [toJson, strings, membersStrings, List.cons_append, List.nil_append,
      List.append_nil] at hplain
    refine ⟨hplain _ (by simp), hplain _ (by simp), ?_⟩
    intro a ha
    obtain ⟨hk, hv⟩ := mem_membersStrings ha
    exact ⟨hplain _ (by simp [hk]), hplain _ (by simp [hv])⟩
  · rintro ⟨hop, hstatus, hattrs⟩
    have hmap : Writes (writeObject (s.attributes.map fun a => (a.1, quote a.2)))
        (.object (s.attributes.map fun a => (a.1, .string a.2))) := by
      apply writes_object
      rw [List.forall₂_map_left_iff, List.forall₂_map_right_iff, List.forall₂_same]
      exact fun a ha => ⟨rfl, (hattrs a ha).1, writes_quote (hattrs a ha).2⟩
    have hline : Writes (s.line dur).toList (s.toJson dur) := by
      rw [toList_line]
      apply writes_object
      simp only [List.forall₂_cons, List.forall₂_nil_left_iff, true_and, and_true]
      exact ⟨⟨by decide, writes_nat _⟩, ⟨by decide, writes_nat _⟩, ⟨by decide, writes_nat _⟩,
        ⟨by decide, writes_quote hop⟩, ⟨by decide, writes_nat _⟩, ⟨by decide, writes_bool _⟩,
        ⟨by decide, writes_quote hstatus⟩, ⟨by decide, hmap⟩⟩
    have hnone : IsWhitespace [] := by simp [IsWhitespace]
    have hdoc := Derives.item hnone hline hnone
    rwa [List.nil_append, List.append_nil] at hdoc

end Span

end Forge
