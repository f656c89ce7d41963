import Mathlib.Data.List.TakeWhile

/-! # Words and Lines of a List

  A list cut at its separators, the entries that `p` holds of:

  - `words`: the longest parts without a separator, however many stand
    between them;
  - `lines`: the parts that one separator each ends, the last of which may
    lack it;
  - `takeWhile_first`, `dropWhile_first`, `idxOf?_first`: what a scan for
    the first separator finds;
  - `words_dropWhile`, `words_takeWhile`: the words, one scan after another.
-/

namespace List

variable {α : Type*} {p : α → Bool} {l l₁ l₂ w : List α} {a sep : α}

/-! ### The First Separator -/

/-- A list has no separator, or a first one. -/
theorem forall_or_first (p : α → Bool) (l : List α) : (∀ x ∈ l, p x = false) ∨
    ∃ w sep rest, l = w ++ sep :: rest ∧ p sep = true ∧ ∀ x ∈ w, p x = false := by
  induction l with
  | nil => exact .inl (by simp)
  | cons a l ih =>
    cases ha : p a with
    | true => exact .inr ⟨[], a, l, rfl, ha, by simp⟩
    | false =>
      obtain hnone | ⟨w, sep, rest, rfl, hsep, hw⟩ := ih
      · exact .inl (forall_mem_cons.mpr ⟨ha, hnone⟩)
      · exact .inr ⟨a :: w, sep, rest, rfl, hsep, forall_mem_cons.mpr ⟨ha, hw⟩⟩

theorem takeWhile_first (hw : ∀ x ∈ w, p x = false) (hsep : p sep = true) :
    (w ++ sep :: l).takeWhile (fun x => !p x) = w := by
  rw [takeWhile_append_of_pos (by simpa using hw), takeWhile_cons_of_neg (by simpa using hsep),
    append_nil]

theorem dropWhile_first (hw : ∀ x ∈ w, p x = false) (hsep : p sep = true) :
    (w ++ sep :: l).dropWhile (fun x => !p x) = sep :: l := by
  rw [dropWhile_append_of_pos (by simpa using hw), dropWhile_cons_of_neg (by simpa using hsep)]

theorem takeWhile_none (hl : ∀ x ∈ l, p x = false) : l.takeWhile (fun x => !p x) = l :=
  takeWhile_eq_self_iff.mpr (by simpa using hl)

theorem dropWhile_none (hl : ∀ x ∈ l, p x = false) : l.dropWhile (fun x => !p x) = [] :=
  dropWhile_eq_nil_iff.mpr (by simpa using hl)

/-- The position of an entry that is not in front of it. -/
theorem idxOf?_first [BEq α] [LawfulBEq α] (hw : a ∉ w) :
    (w ++ a :: l).idxOf? a = some w.length := by
  induction w with
  | nil => simp [idxOf?_cons]
  | cons b w ih =>
    rw [mem_cons, not_or] at hw
    have hba : (b == a) = false := beq_false_of_ne (Ne.symm hw.1)
    rw [cons_append, idxOf?_cons, hba, ih hw.2]
    rfl

/-! ### Words -/

/-- The longest parts without a separator. -/
def words (p : α → Bool) (l : List α) : List (List α) :=
  (l.splitOnP p).filter fun w => !w.isEmpty

@[simp] theorem words_nil : words p [] = [] := by simp [words]

/-- A separator ends what is in front of it. -/
theorem words_append_cons (l₁ l₂ : List α) (hsep : p sep = true) :
    words p (l₁ ++ sep :: l₂) = words p l₁ ++ words p l₂ := by
  rw [words, splitOnP_append_cons l₁ l₂ hsep, filter_append]
  rfl

theorem words_cons (l : List α) (hsep : p sep = true) : words p (sep :: l) = words p l := by
  simpa using words_append_cons [] l hsep

/-- Separators in front are passed over. -/
theorem words_append_of_forall (l₂ : List α) (hl : ∀ x ∈ l₁, p x = true) :
    words p (l₁ ++ l₂) = words p l₂ := by
  induction l₁ with
  | nil => rfl
  | cons a l₁ ih =>
    rw [cons_append, words_cons _ (hl a (by simp)), ih fun x hx => hl x (by simp [hx])]

theorem words_singleton (hne : w ≠ []) (hw : ∀ x ∈ w, p x = false) : words p w = [w] := by
  rw [words, splitOnP_eq_singleton hw]
  simp [hne]

/-- The word in front, that a separator or the end follows. -/
theorem words_first (hne : w ≠ []) (hw : ∀ x ∈ w, p x = false)
    (hrest : ∀ x ∈ l.head?, p x = true) : words p (w ++ l) = w :: words p l := by
  cases l with
  | nil => rw [append_nil, words_singleton hne hw, words_nil]
  | cons sep l =>
    have hsep : p sep = true := hrest sep rfl
    rw [words_append_cons w l hsep, words_singleton hne hw, words_cons l hsep]
    rfl

/-- One scan: the separators in front are passed over. -/
theorem words_dropWhile (p : α → Bool) (l : List α) : words p (l.dropWhile p) = words p l := by
  calc words p (l.dropWhile p)
      = words p (l.takeWhile p ++ l.dropWhile p) :=
        (words_append_of_forall _ fun x hx => mem_takeWhile_imp hx).symm
    _ = words p l := by rw [takeWhile_append_dropWhile]

/-- Another scan: the word that is there now. -/
theorem words_takeWhile (ha : p a = false) : words p (a :: l) =
    (a :: l).takeWhile (fun x => !p x) :: words p ((a :: l).dropWhile fun x => !p x) := by
  obtain hnone | ⟨w, sep, rest, heq, hsep, hw⟩ := forall_or_first p (a :: l)
  · rw [takeWhile_none hnone, dropWhile_none hnone, words_nil,
      words_singleton (cons_ne_nil _ _) hnone]
  · rw [heq, takeWhile_first hw hsep, dropWhile_first hw hsep]
    refine words_first ?_ hw (by simpa using hsep)
    rintro rfl
    obtain ⟨rfl, -⟩ := cons_eq_cons.mp heq
    rw [ha] at hsep
    cases hsep

/-- A word is not empty, and has no separators. -/
theorem mem_words (hw : w ∈ words p l) : w ≠ [] ∧ ∀ x ∈ w, p x = false ∧ x ∈ l := by
  rw [words, mem_filter] at hw
  obtain ⟨hmem, hne⟩ := hw
  refine ⟨by simpa using hne, ?_⟩
  clear hne
  induction l generalizing w with
  | nil =>
    rw [splitOnP_nil, mem_singleton] at hmem
    simp [hmem]
  | cons a l ih =>
    rw [splitOnP_cons_eq_if_modifyHead] at hmem
    have hlater : ∀ w ∈ l.splitOnP p, ∀ x ∈ w, p x = false ∧ x ∈ a :: l :=
      fun w hw x hx => ⟨(ih hw x hx).1, mem_cons_of_mem a (ih hw x hx).2⟩
    split at hmem
    · obtain rfl | hmem := mem_cons.mp hmem
      · simp
      · exact hlater w hmem
    · next ha =>
      obtain ⟨first, rest, hsplit⟩ := exists_cons_of_ne_nil (splitOnP_ne_nil p l)
      rw [hsplit, modifyHead_cons] at hmem
      rw [hsplit] at hlater
      obtain rfl | hmem := mem_cons.mp hmem
      · exact forall_mem_cons.mpr ⟨⟨by simpa using ha, mem_cons_self⟩, hlater first mem_cons_self⟩
      · exact hlater w (mem_cons_of_mem first hmem)

/-! ### Lines -/

/-- The parts that a separator ends, and what is behind the last one. -/
def lines (p : α → Bool) (l : List α) : List (List α) :=
  match (l.splitOnP p).getLast? with
  | some [] => (l.splitOnP p).dropLast
  | _ => l.splitOnP p

/-- The last line has no separator at its end. -/
def Unterminated (p : α → Bool) (l : List α) : Prop := ∃ a ∈ l.getLast?, p a = false

@[simp] theorem lines_nil : lines p [] = [] := by simp [lines]

theorem lines_first (hw : ∀ x ∈ w, p x = false) (hsep : p sep = true) :
    lines p (w ++ sep :: l) = w :: lines p l := by
  have hsplit := splitOnP_append_cons_of_forall_mem hw sep hsep l
  have hne := splitOnP_ne_nil p l
  unfold lines
  rw [hsplit, getLast?_cons_of_ne_nil hne, dropLast_cons_of_ne_nil hne]
  split <;> rfl

theorem lines_last (hne : w ≠ []) (hw : ∀ x ∈ w, p x = false) : lines p w = [w] := by
  unfold lines
  rw [splitOnP_eq_singleton hw]
  simp [hne]

theorem lines_eq_nil_iff : lines p l = [] ↔ l = [] := by
  constructor
  · intro h
    rcases forall_or_first p l with hnone | ⟨w, sep, rest, rfl, hsep, hw⟩
    · by_contra hne
      rw [lines_last hne hnone] at h
      cases h
    · rw [lines_first hw hsep] at h
      cases h
  · intro h
    rw [h, lines_nil]

theorem unterminated_first (hsep : p sep = true) :
    Unterminated p (w ++ sep :: l) ↔ Unterminated p l := by
  unfold Unterminated
  rw [getLast?_append, getLast?_cons, Option.some_or]
  cases l.getLast? with
  | none => simp [hsep]
  | some a => simp

theorem unterminated_last (hne : w ≠ []) (hw : ∀ x ∈ w, p x = false) : Unterminated p w :=
  ⟨w.getLast hne, getLast?_eq_some_getLast hne, hw _ (getLast_mem hne)⟩

end List
