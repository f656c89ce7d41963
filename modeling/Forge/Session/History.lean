import Forge.Framework.System
import Forge.Session.ConversationWindow

/-! # Bounded Histories and Tool Messages

  An LLM request is well-formed when every tool message comes after the
  assistant message that asked for it. A conversation that is over its
  capacity is cut by count alone:

  - `WellFormed`: what a request should look like;
  - `Grouped`: the way the messages are pushed, every assistant message
    followed by its tool messages;
  - `Grouped.wellFormed_window_iff`: the cut is between two groups or it
    is not.
-/

namespace Forge

/-- `a` asks for the tool call that `m` answers. -/
def Message.Asks (a m : Message) : Prop :=
  a.role = "assistant" ∧ m.toolCallId ∈ a.toolCalls.map ToolCall.id

instance (a m : Message) : Decidable (a.Asks m) := inferInstanceAs (Decidable (_ ∧ _))

/-- Every tool message is preceded by an assistant message that asks for
    it. -/
def WellFormed (h : List Message) : Prop :=
  ∀ l₁ m l₂, h = l₁ ++ m :: l₂ → m.role = "tool" → ∃ a ∈ l₁, a.Asks m

/-- Every tool message belongs to the assistant message in front of its
    block of tool messages. -/
def Grouped (h : List Message) : Prop :=
  ∀ l₁ m l₂, h = l₁ ++ m :: l₂ → m.role = "tool" →
    ∃ l₀ a ts, l₁ = l₀ ++ a :: ts ∧ (∀ t ∈ ts, t.role = "tool") ∧ a.Asks m

variable {all kept : List Message} {a m : Message}

/-! ### Grouped Pushes -/

theorem grouped_of_no_tools (h : ∀ m ∈ all, m.role ≠ "tool") : Grouped all := by
  intro l₁ m l₂ hall htool
  exact absurd htool (h m (by simp [hall]))

/-- A message of another role may follow anywhere. -/
theorem Grouped.snoc (hg : Grouped all) (hm : m.role ≠ "tool") : Grouped (all ++ [m]) := by
  intro l₁ m' l₂ hall htool
  obtain ⟨-, -, rfl⟩ | ⟨l₃, -, hold⟩ := LTS.System.snoc_split hall
  · exact absurd htool hm
  · exact hg l₁ m' l₃ hold htool

/-- A tool message may follow the assistant message that asks for it, or
    other tool messages of its group. -/
theorem Grouped.snoc_tool {l₀ ts : List Message} (hg : Grouped (l₀ ++ a :: ts))
    (hts : ∀ t ∈ ts, t.role = "tool") (hasks : a.Asks m) : Grouped ((l₀ ++ a :: ts) ++ [m]) := by
  intro l₁ m' l₂ hall htool
  obtain ⟨-, rfl, rfl⟩ | ⟨l₃, -, hold⟩ := LTS.System.snoc_split hall
  · exact ⟨l₀, a, ts, rfl, hts, hasks⟩
  · exact hg l₁ m' l₃ hold htool

/-- An assistant message and its tool messages. -/
theorem Grouped.group (hg : Grouped all) (hrole : a.role = "assistant") {ts : List Message}
    (hts : ∀ t ∈ ts, t.role = "tool" ∧ a.Asks t) : Grouped (all ++ a :: ts) := by
  induction ts using List.reverseRecOn with
  | nil => exact hg.snoc (by rw [hrole]; decide)
  | append_singleton ts t ih =>
    have hold : ∀ t' ∈ ts, t'.role = "tool" ∧ a.Asks t' := fun t' ht' => hts t' (by simp [ht'])
    have hsnoc := (ih hold).snoc_tool (fun t' ht' => (hold t' ht').1) (hts t (by simp)).2
    simpa using hsnoc

/-! ### Where the Cut Is -/

theorem Grouped.wellFormed (hg : Grouped all) : WellFormed all := by
  intro l₁ m l₂ hall htool
  obtain ⟨l₀, a, ts, rfl, -, hasks⟩ := hg l₁ m l₂ hall htool
  exact ⟨a, by simp, hasks⟩

/-- Behind a message of another role the most recent messages are
    well-formed on their own. -/
theorem Grouped.wellFormed_of_head (hg : Grouped all) (hk : kept <:+ all)
    (hhead : ∀ m ∈ kept.head?, m.role ≠ "tool") : WellFormed kept := by
  obtain ⟨dropped, rfl⟩ := hk
  rintro l₁ m l₂ rfl htool
  obtain ⟨l₀, a, ts, hsplit, hts, hasks⟩ := hg (dropped ++ l₁) m l₂ (by simp) htool
  refine ⟨a, ?_, hasks⟩
  cases l₁ with
  | nil => exact absurd htool (hhead m (by simp))
  | cons first rest =>
    -- the group starts behind the cut, else `first` is a tool message
    have hfirst : first.role ≠ "tool" := hhead first (by simp)
    obtain ⟨mid, rfl, hmid⟩ | ⟨mid, rfl, hmid⟩ := List.append_eq_append_iff.mp hsplit
    · rw [hmid]
      simp
    · cases mid with
      | nil =>
        simp only [List.nil_append, List.cons.injEq] at hmid
        simp [hmid.1]
      | cons b mid =>
        simp only [List.cons_append, List.cons.injEq] at hmid
        exact absurd (hts first (by simp [hmid.2])) hfirst

/-- The message neither answers a tool call nor asks for one. -/
def Message.Quiet (b : Message) : Prop := b.role ≠ "tool" ∧ ∀ m, ¬b.Asks m

theorem Message.quiet_of_system {b : Message} (hb : b.role = "system") : b.Quiet := by
  refine ⟨by rw [hb]; decide, ?_⟩
  intro m hasks
  rw [hasks.1] at hb
  exact absurd hb (by decide)

theorem Message.quiet_of_calls {b : Message} (hb : b.role = "assistant")
    (hcalls : b.toolCalls = []) : b.Quiet := by
  refine ⟨by rw [hb]; decide, ?_⟩
  intro m hasks
  simpa [hcalls] using hasks.2

/-- Behind messages that have nothing to do with tools, the history is
    well-formed when the cut is between two groups, and only then. -/
theorem Grouped.wellFormed_append_iff {front : List Message} (hg : Grouped all)
    (hfront : ∀ b ∈ front, b.Quiet) (hk : kept <:+ all) :
    WellFormed (front ++ kept) ↔ ∀ m ∈ kept.head?, m.role ≠ "tool" := by
  constructor
  · intro hwf m hm htool
    obtain ⟨rest, hkept⟩ := List.head?_eq_some_iff.mp hm
    obtain ⟨b, hb, hasks⟩ := hwf front m rest (by rw [hkept]) htool
    exact (hfront b hb).2 m hasks
  · intro hhead l₁ m l₂ hsplit htool
    have hwf := hg.wellFormed_of_head hk hhead
    obtain ⟨mid, rfl, hmid⟩ | ⟨mid, hmid, hrest⟩ := List.append_eq_append_iff.mp hsplit
    · obtain ⟨b, hb, hasks⟩ := hwf mid m l₂ hmid htool
      exact ⟨b, by simp [hb], hasks⟩
    · cases mid with
      | nil =>
        obtain ⟨b, hb, hasks⟩ := hwf [] m l₂ (by simpa using hrest.symm) htool
        exact ⟨b, by simp at hb, hasks⟩
      | cons z mid =>
        simp only [List.cons_append, List.cons.injEq] at hrest
        exact absurd htool ((hfront m (by simp [hmid, hrest.1])).1)

/-- What is left of the messages in `front`, which have nothing to do with
    tools, and of those behind them. -/
theorem Grouped.wellFormed_window_iff {front : List Message} (hg : Grouped all)
    (hfront : ∀ b ∈ front, b.Quiet) (hk : kept <:+ all) (maxMessages : ℕ) :
    WellFormed (Conversation.window maxMessages (front ++ kept)) ↔
      ∀ m ∈ (kept.rtake (Conversation.room maxMessages (front ++ kept))).head?,
        m.role ≠ "tool" := by
  rw [Conversation.window_split]
  apply hg.wellFormed_append_iff _ ((List.rtake_suffix _ _).trans hk)
  intro b hb
  obtain hsystem | hrest := List.mem_append.mp hb
  · exact Message.quiet_of_system (Conversation.preserved_role b (by simpa using hsystem))
  · exact hfront b ((List.rtake_suffix _ _).mem hrest)

end Forge
