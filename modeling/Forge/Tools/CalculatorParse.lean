import Forge.Tools.CalculatorNumbers

/-! # Calculator — Parser and Grammar

  `ExprParser::parse` (`tools/builtin/calculator.h`) returns, and it
  returns the value of the tree of its input, if there is one:

  - `SoundAt`: what a procedure accepts derives, and has the value that is
    returned;
  - `Complete`: on what derives a procedure does what the tree says, up to
    the first exception;
  - `Total`: the bound on the depth is large enough;
  - `parse_spec`: the three together, and the round trip of a printed tree.

  Each of the three is shown for one procedure at a time, from what holds
  of the procedures it calls.
-/

namespace Forge

namespace Calculator

variable {α β : Type} {A : Arithmetic α} {size : ℕ} {s s' rest : List Char} {c : Char}
  {toks w : List Token} {t : Tree}

/-! ### Left-Associative Chains -/

/-- One operand, or a chain, an operator and one more operand. -/
inductive LeftChain (IsOp : Op → Prop) (D : Tree → List Token → Prop) :
    Tree → List Token → Prop where
  | single {t : Tree} {w : List Token} : D t w → LeftChain IsOp D t w
  | snoc {o : Op} {l r : Tree} {w₁ w₂ : List Token} : IsOp o → LeftChain IsOp D l w₁ → D r w₂ →
      LeftChain IsOp D (.binary o l r) (w₁ ++ .op o :: w₂)

theorem Derives.exprChain {t : Tree} {w : List Token} :
    Derives .expr t w → LeftChain IsExprOp (Derives .term) t w
  | .term h => .single h
  | .exprOp ho hl hr => .snoc ho hl.exprChain hr

theorem Derives.termChain {t : Tree} {w : List Token} :
    Derives .term t w → LeftChain IsTermOp (Derives .power) t w
  | .power h => .single h
  | .termOp ho hl hr => .snoc ho hl.termChain hr

theorem LeftChain.expr (h : LeftChain IsExprOp (Derives .term) t w) : Derives .expr t w := by
  induction h with
  | single h => exact .term h
  | snoc ho _ hr ih => exact .exprOp ho ih hr

theorem LeftChain.term (h : LeftChain IsTermOp (Derives .power) t w) : Derives .term t w := by
  induction h with
  | single h => exact .power h
  | snoc ho _ hr ih => exact .termOp ho ih hr

/-- The loop looks for these operators. -/
def Reads (ops : Char → Option Op) (IsOp : Op → Prop) : Prop :=
  ∀ (c : Char) (o : Op), ops c = some o ↔ c = o.char ∧ IsOp o

/-- A choice between two operators. -/
theorem reads_of_two {ops : Char → Option Op} {o₁ o₂ : Op}
    (hops : ∀ c, ops c = if c = o₁.char then some o₁ else if c = o₂.char then some o₂ else none)
    (hne : o₂.char ≠ o₁.char) : Reads ops fun o => o = o₁ ∨ o = o₂ := by
  intro c o
  rw [hops]
  constructor
  · intro h
    split at h
    · next hc => exact ⟨by rw [hc, ← Option.some.inj h], .inl (Option.some.inj h).symm⟩
    · split at h
      · next hc => exact ⟨by rw [hc, ← Option.some.inj h], .inr (Option.some.inj h).symm⟩
      · exact absurd h (by simp)
  · rintro ⟨rfl, rfl | rfl⟩
    · rw [if_pos rfl]
    · rw [if_neg hne, if_pos rfl]

theorem exprOps_reads : Reads exprOps IsExprOp := reads_of_two (fun _ => rfl) (by decide)

theorem termOps_reads : Reads termOps IsTermOp := reads_of_two (fun _ => rfl) (by decide)

/-! ### Results -/

theorem Result.andThen_ok {r : Result α} {f : α → List Char → Result β} {x : β × List Char}
    (h : r.andThen f = some (.ok x)) :
    ∃ v s, r = some (.ok (v, s)) ∧ f v s = some (.ok x) := by
  match r with
  | none => exact absurd h (by simp [Result.andThen])
  | some (.error e) => exact absurd h (by simp [Result.andThen])
  | some (.ok (v, s)) => exact ⟨v, s, rfl, h⟩

/-- A procedure that has returned, and what has come after it. -/
theorem Result.andThen_some {r : Result α} {f : α → List Char → Result β}
    {x : Except String (β × List Char)} (h : r.andThen f = some x) :
    ∃ y, r = some y ∧ match y with
      | .error e => x = .error e
      | .ok (v, s) => f v s = some x := by
  match r with
  | none => exact absurd h (by simp [Result.andThen])
  | some (.error e) => exact ⟨.error e, rfl, (Option.some.inj h).symm⟩
  | some (.ok (v, s)) => exact ⟨.ok (v, s), rfl, h⟩

theorem Result.andThen_ne_none {r : Result α} {f : α → List Char → Result β} (hr : r ≠ none)
    (hf : ∀ v s, r = some (.ok (v, s)) → f v s ≠ none) : r.andThen f ≠ none := by
  match r with
  | none => exact absurd rfl hr
  | some (.error e) => simp [Result.andThen]
  | some (.ok (v, s)) => exact hf v s rfl

/-! ### Soundness -/

/-- What the procedure returns on `s` is the value of a derivation, whose
    tokens are in front of what is left. -/
def SoundAt (A : Arithmetic α) (D : Tree → List Token → Prop) (p : List Char → Result α)
    (s : List Char) : Prop :=
  ∀ v s', p s = some (.ok (v, s')) → ∃ t w, D t w ∧ eval A t = .ok v ∧ s'.length < s.length ∧
    ∀ toks, Spells toks s' → Spells (w ++ toks) s

theorem consume_fst (s : List Char) : (consume s).1 = peek s := by
  unfold consume peek
  cases skipWs s <;> rfl

/-- A character is read. -/
theorem consume_spec (hpeek : peek s = c) (hc : c ≠ '\x00') :
    skipWs s = c :: (consume s).2 ∧ (consume s).2.length < s.length := by
  obtain ⟨rest, hskip, hconsume, hlt⟩ := skipWs_of_peek hpeek hc
  rw [hconsume]
  exact ⟨hskip, hlt⟩

/-- The token of that character is in front. -/
theorem spells_of_consume (hpeek : peek s = c) (hc : c ≠ '\x00') {tok : Token}
    (htok : ∀ {toks s}, Spells toks s → Spells (tok :: toks) (c :: s))
    (h : Spells toks (consume s).2) : Spells (tok :: toks) s := by
  apply Spells.of_skipWs
  rw [(consume_spec hpeek hc).1]
  exact htok h

theorem Op.char_ne_nul (o : Op) : o.char ≠ '\x00' := by cases o <;> decide

theorem sound_number (hminus : peek s ≠ '-') :
    SoundAt A (Derives .atom) (parseNumber A size) s := by
  intro v s' h
  have hhead : (skipWs s).head? ≠ some '-' := by
    intro hhead
    obtain ⟨rest, hrest⟩ := List.head?_eq_some_iff.mp hhead
    exact hminus (peek_eq_of_skipWs hrest)
  unfold parseNumber at h
  obtain ⟨text, rest, hscan⟩ : ∃ text rest, scanNumber (skipWs s) = (text, rest) := ⟨_, _, rfl⟩
  simp only [hscan] at h
  obtain ⟨heq, htext, hstop⟩ := (scanNumber_eq_iff hhead).mp hscan
  split at h
  · exact absurd h (by simp)
  · next hne =>
    have htext := htext.resolve_left hne
    cases hstod : A.stod text with
    | error e => exact absurd h (by simp [Result.of, hstod, Except.map])
    | ok x =>
      simp only [Result.of, hstod, Except.map, Option.some.injEq, Except.ok.injEq,
        Prod.mk.injEq] at h
      obtain ⟨rfl, rfl⟩ := h
      refine ⟨_, _, .number text, hstod, ?_, ?_⟩
      · have hle := length_skipWs_le s
        have hpos := List.length_pos_of_ne_nil hne
        have hlen := congrArg List.length heq
        rw [List.length_append] at hlen
        omega
      · intro toks hs
        apply Spells.of_skipWs
        rw [heq]
        exact .number htext hstop hs

theorem sound_atom {expr : List Char → Result α}
    (hexpr : ∀ s, SoundAt A (Derives .expr) expr s) (hminus : peek s ≠ '-') :
    SoundAt A (Derives .atom) (parseAtom A size expr) s := by
  intro v s' h
  unfold parseAtom at h
  split at h
  · next hparen =>
    obtain ⟨val, s₁, hval, h⟩ := Result.andThen_ok h
    split at h
    · exact absurd h (by simp)
    · next hclose =>
      rw [not_not, consume_fst] at hclose
      simp only [Option.some.injEq, Except.ok.injEq, Prod.mk.injEq] at h
      obtain ⟨rfl, rfl⟩ := h
      obtain ⟨t, w, hd, heval, hlt, hspells⟩ := hexpr _ val s₁ hval
      have hopen := (consume_spec hparen (by decide)).2
      have hend := (consume_spec hclose (by decide)).2
      refine ⟨t, .lparen :: (w ++ [.rparen]), .parens hd, heval, by omega, ?_⟩
      intro toks hs
      have hinner := hspells _ (spells_of_consume hclose (by decide) .rparen hs)
      have houter := spells_of_consume hparen (by decide) .lparen hinner
      simpa using houter
  · exact sound_number hminus v s' h

theorem sound_unary {atom : List Char → Result α}
    (hatom : ∀ s, peek s ≠ '-' → SoundAt A (Derives .atom) atom s) (depth : ℕ) :
    ∀ s, SoundAt A (Derives .unary) (parseUnary A atom depth) s := by
  induction depth with
  | zero => intro s v s' h; exact absurd h (by simp [parseUnary])
  | succ depth ih =>
    intro s v s' h
    unfold parseUnary at h
    split at h
    · next hminus =>
      obtain ⟨x, s₁, hx, h⟩ := Result.andThen_ok h
      simp only [Option.some.injEq, Except.ok.injEq, Prod.mk.injEq] at h
      obtain ⟨rfl, rfl⟩ := h
      obtain ⟨t, w, hd, heval, hlt, hspells⟩ := ih _ x s₁ hx
      have hsign := (consume_spec hminus (by decide)).2
      refine ⟨.neg t, .op .sub :: w, .neg hd, by rw [eval, heval]; rfl, by omega, ?_⟩
      intro toks hs
      exact spells_of_consume hminus (by decide) (.op .sub) (hspells toks hs)
    · next hminus =>
      obtain ⟨t, w, hd, hrest⟩ := hatom s hminus v s' h
      exact ⟨t, w, .atom hd, hrest⟩

theorem sound_power {unary : List Char → Result α}
    (hunary : ∀ s, SoundAt A (Derives .unary) unary s) (depth : ℕ) :
    ∀ s, SoundAt A (Derives .power) (parsePower A unary depth) s := by
  induction depth with
  | zero => intro s v s' h; exact absurd h (by simp [parsePower])
  | succ depth ih =>
    intro s v s' h
    unfold parsePower at h
    obtain ⟨base, s₁, hbase, h⟩ := Result.andThen_ok h
    obtain ⟨b, w₁, hd₁, heval₁, hlt₁, hspells₁⟩ := hunary s base s₁ hbase
    split at h
    · next hcaret =>
      obtain ⟨exp, s₂, hexp, h⟩ := Result.andThen_ok h
      simp only [Option.some.injEq, Except.ok.injEq, Prod.mk.injEq] at h
      obtain ⟨rfl, rfl⟩ := h
      obtain ⟨e, w₂, hd₂, heval₂, hlt₂, hspells₂⟩ := ih _ exp s₂ hexp
      have hcaret' := (consume_spec hcaret (by decide)).2
      refine ⟨.binary .pow b e, _, .powerOp hd₁ hd₂, ?_, by omega, ?_⟩
      · rw [eval, heval₁, heval₂]
        rfl
      · intro toks hs
        have hright := spells_of_consume hcaret (by decide) (.op .pow) (hspells₂ toks hs)
        simpa using hspells₁ _ hright
    · simp only [Option.some.injEq, Except.ok.injEq, Prod.mk.injEq] at h
      obtain ⟨rfl, rfl⟩ := h
      have hle := length_skipWs_le s₁
      exact ⟨b, w₁, .unary hd₁, heval₁, by omega, fun toks hs => hspells₁ toks hs.of_skipWs⟩

section Chain

variable {ops : Char → Option Op} {IsOp : Op → Prop} {D : Tree → List Token → Prop}
  {operand : List Char → Result α}

/-- The loop, behind a chain that has been read. -/
theorem sound_loop (hops : Reads ops IsOp) (hoperand : ∀ s, SoundAt A D operand s) {depth : ℕ}
    {left v : α} {s₀ : List Char} (hd : LeftChain IsOp D t w) (heval : eval A t = .ok left)
    (hlt : s.length < s₀.length) (hspells : ∀ toks, Spells toks s → Spells (w ++ toks) s₀)
    (h : chainLoop A ops operand depth left s = some (.ok (v, s'))) :
    ∃ t w, LeftChain IsOp D t w ∧ eval A t = .ok v ∧ s'.length < s₀.length ∧
      ∀ toks, Spells toks s' → Spells (w ++ toks) s₀ := by
  induction depth generalizing t w left s with
  | zero => exact absurd h (by simp [chainLoop])
  | succ depth ih =>
    unfold chainLoop at h
    split at h
    · next op hop =>
      obtain ⟨hpeek, hisop⟩ := (hops _ _).mp hop
      obtain ⟨right, s₁, hright, h⟩ := Result.andThen_ok h
      obtain ⟨r, w₂, hd₂, heval₂, hlt₂, hspells₂⟩ := hoperand _ right s₁ hright
      have hread := (consume_spec hpeek op.char_ne_nul).2
      split at h
      · exact absurd h (by simp)
      · next x happly =>
        refine ih (.snoc hisop hd hd₂) ?_ (by omega) ?_ h
        · rw [eval, heval, heval₂]
          exact happly
        · intro toks hs
          have hop' := spells_of_consume hpeek op.char_ne_nul (.op op) (hspells₂ toks hs)
          simpa using hspells _ hop'
    · simp only [Option.some.injEq, Except.ok.injEq, Prod.mk.injEq] at h
      obtain ⟨rfl, rfl⟩ := h
      have hle := length_skipWs_le s
      exact ⟨t, w, hd, heval, by omega, fun toks hs => hspells toks hs.of_skipWs⟩

theorem sound_chain (hops : Reads ops IsOp) (hoperand : ∀ s, SoundAt A D operand s) (depth : ℕ) :
    ∀ s, SoundAt A (LeftChain IsOp D) (parseChain A ops operand depth) s := by
  intro s v s' h
  obtain ⟨left, s₁, hleft, h⟩ := Result.andThen_ok h
  obtain ⟨t, w, hd, heval, hlt, hspells⟩ := hoperand s left s₁ hleft
  exact sound_loop hops hoperand (.single hd) heval hlt hspells h

end Chain

/-- The `parse_term` that `parse_expr` calls. -/
def termProc (A : Arithmetic α) (size depth : ℕ) : List Char → Result α :=
  parseTerm A (parsePower A (parseUnary A (parseAtom A size (parseExpr A size depth)) (depth + 1))
    (depth + 1)) (depth + 1)

theorem parseExpr_succ (depth : ℕ) (s : List Char) : parseExpr A size (depth + 1) s =
    parseChain A exprOps (termProc A size depth) (depth + 1) s := rfl

/-- **Soundness of `parse_expr`.** -/
theorem sound_expr (depth : ℕ) : ∀ s, SoundAt A (Derives .expr) (parseExpr A size depth) s := by
  induction depth with
  | zero => intro s v s' h; exact absurd h (by simp [parseExpr])
  | succ depth ih =>
    have hterm : ∀ s, SoundAt A (Derives .term) (termProc A size depth) s := by
      intro s v s' h
      obtain ⟨t, w, hd, hrest⟩ := sound_chain termOps_reads
        (sound_power (sound_unary (fun s hminus => sound_atom ih hminus) _) _) _ s v s' h
      exact ⟨t, w, hd.term, hrest⟩
    intro s v s' h
    rw [parseExpr_succ] at h
    obtain ⟨t, w, hd, hrest⟩ := sound_chain exprOps_reads hterm _ s v s' h
    exact ⟨t, w, hd.expr, hrest⟩

/-! ### Completeness -/

/-- What is behind a phrase whose procedure goes on at the operators
    `takes`: a closing parenthesis, another operator or the end. -/
def Stops (takes : Op → Prop) (toks : List Token) : Prop :=
  ∀ tok ∈ toks.head?, tok = .rparen ∨ ∃ o, tok = .op o ∧ ¬takes o

/-- The result of a procedure when its phrase has the value `v` and the
    tokens `toks` are behind it. -/
def Yields (toks : List Token) (v : Except String α) (r : Except String (α × List Char)) : Prop :=
  match v with
  | .ok v => ∃ s', Spells toks s' ∧ r = .ok (v, s')
  | .error e => r = .error e

/-- Where a derivation is in front, the procedure gives its value, or the
    exception of its evaluation. -/
def Complete (A : Arithmetic α) (D : Tree → List Token → Prop) (takes : Op → Prop)
    (p : List Char → Result α) : Prop :=
  ∀ t w toks s r, D t w → Stops takes toks → Spells (w ++ toks) s → p s = some r →
    Yields toks (eval A t) r

variable {takes : Op → Prop} {o : Op} {text : List Char} {r : Except String (α × List Char)}

theorem Stops.weaken {takes' : Op → Prop} (h : Stops takes toks) (hle : ∀ o, takes' o → takes o) :
    Stops takes' toks := by
  intro tok htok
  obtain hclose | ⟨o, ho, hnot⟩ := h tok htok
  · exact .inl hclose
  · exact .inr ⟨o, ho, fun ht => hnot (hle o ht)⟩

/-- A token of one character is read. -/
theorem Spells.char_inv {tok : Token} (h : Spells (tok :: toks) s) (htext : tok.text = [c]) :
    peek s = c ∧ Spells toks (consume s).2 := by
  obtain ⟨rest, hskip, hrest, -⟩ := h.cons_inv
  rw [htext] at hskip
  exact ⟨peek_eq_of_skipWs hskip, by rwa [consume_eq_of_skipWs hskip]⟩

/-- A number is read. -/
theorem Spells.number_inv (h : Spells (.number text :: toks) s) :
    (numberStep .start (peek s)).isSome ∧ ∃ rest, scanNumber (skipWs s) = (text, rest) ∧
      text ≠ [] ∧ Spells toks rest := by
  obtain ⟨rest, hskip, hrest, hnumber⟩ := h.cons_inv
  obtain ⟨htext, hstop⟩ := hnumber text rfl
  obtain ⟨c, w, rfl⟩ := List.exists_cons_of_ne_nil htext.1
  have hfirst := htext.first
  have hhead : (skipWs s).head? ≠ some '-' := by
    rw [hskip]
    intro hminus
    obtain rfl : c = '-' := Option.some.inj hminus
    exact absurd hfirst (by decide)
  refine ⟨by rwa [peek_eq_of_skipWs hskip], rest, ?_, htext.1, hrest⟩
  exact (scanNumber_eq_iff hhead).mpr ⟨hskip, .inr htext, hstop⟩

/-- A derivation of `atom` does not begin with a minus sign. -/
theorem Derives.atom_peek (hd : Derives .atom t w) (h : Spells (w ++ toks) s) : peek s ≠ '-' := by
  cases hd with
  | parens hd =>
    rw [List.cons_append] at h
    rw [(h.char_inv rfl).1]
    decide
  | number text =>
    have hfirst := h.number_inv.1
    intro hminus
    rw [hminus] at hfirst
    exact absurd hfirst (by decide)

theorem Op.char_inj {o o' : Op} (h : o.char = o'.char) : o = o' := by
  cases o <;> cases o' <;> first | rfl | exact absurd h (by decide)

/-- The procedure does not go on. -/
theorem Stops.peek_ne (hstops : Stops takes toks) (h : Spells toks s) (ho : takes o) :
    peek s ≠ o.char := by
  cases toks with
  | nil =>
    rw [peek, h.nil_inv]
    exact o.char_ne_nul.symm
  | cons tok toks =>
    obtain rfl | ⟨o', rfl, hnot⟩ := hstops tok rfl
    · rw [(h.char_inv rfl).1]
      cases o <;> decide
    · rw [(h.char_inv rfl).1]
      intro heq
      rw [Op.char_inj heq] at hnot
      exact hnot ho

/-- What comes after a procedure goes on with the value of its phrase, up
    to the first exception. -/
theorem Complete.andThen {D : Tree → List Token → Prop} {p : List Char → Result α}
    {f : α → List Char → Result α} {x : Except String (α × List Char)} (hp : Complete A D takes p)
    (hd : D t w) (hstops : Stops takes toks) (hs : Spells (w ++ toks) s)
    (h : (p s).andThen f = some x) :
    match eval A t with
    | .error e => x = .error e
    | .ok v => ∃ s', Spells toks s' ∧ f v s' = some x := by
  obtain ⟨y, hy, h⟩ := Result.andThen_some h
  have hyields := hp t w toks s y hd hstops hs hy
  cases heval : eval A t with
  | error e =>
    rw [heval] at hyields
    obtain rfl : y = .error e := hyields
    exact h
  | ok v =>
    rw [heval] at hyields
    obtain ⟨s₁, hs₁, rfl⟩ := hyields
    exact ⟨s₁, hs₁, h⟩

theorem complete_atom {expr : List Char → Result α}
    (hexpr : Complete A (Derives .expr) (fun _ => True) expr) :
    Complete A (Derives .atom) (fun _ => False) (parseAtom A size expr) := by
  intro t w toks s r hd hstops hs h
  unfold parseAtom at h
  cases hd with
  | @parens t w hd =>
    rw [List.cons_append, List.append_assoc] at hs
    obtain ⟨hopen, hinner⟩ := hs.char_inv rfl
    rw [if_pos hopen] at h
    have hinside := hexpr.andThen hd (by simp [Stops]) hinner h
    cases heval : eval A t with
    | error e =>
      rw [heval] at hinside
      exact hinside
    | ok v =>
      rw [heval] at hinside
      obtain ⟨s₁, hs₁, h⟩ := hinside
      obtain ⟨hclose, hrest⟩ := hs₁.char_inv rfl
      simp only [consume_fst, hclose, ne_eq, not_true_eq_false, if_false] at h
      exact ⟨_, hrest, (Option.some.inj h).symm⟩
  | number text =>
    obtain ⟨hfirst, rest, hscan, hne, hrest⟩ := hs.number_inv
    have hparen : peek s ≠ '(' := by
      intro hparen
      rw [hparen] at hfirst
      exact absurd hfirst (by decide)
    rw [if_neg hparen, parseNumber] at h
    simp only [hscan, if_neg hne, Result.of, Option.some.injEq] at h
    rw [eval, ← h]
    cases A.stod text with
    | error e => rfl
    | ok v => exact ⟨rest, hrest, rfl⟩

theorem complete_unary {atom : List Char → Result α}
    (hatom : Complete A (Derives .atom) (fun _ => False) atom) (depth : ℕ) :
    Complete A (Derives .unary) (fun _ => False) (parseUnary A atom depth) := by
  induction depth with
  | zero => intro t w toks s r _ _ _ h; exact absurd h (by simp [parseUnary])
  | succ depth ih =>
    intro t w toks s r hd hstops hs h
    unfold parseUnary at h
    cases hd with
    | atom hd =>
      rw [if_neg (hd.atom_peek hs)] at h
      exact hatom t w toks s r hd hstops hs h
    | @neg t w hd =>
      rw [List.cons_append] at hs
      obtain ⟨hminus, hinner⟩ := hs.char_inv rfl
      have hminus : peek s = '-' := hminus
      rw [if_pos hminus] at h
      have hsigned := ih.andThen hd hstops hinner h
      rw [eval]
      cases heval : eval A t with
      | error e =>
        rw [heval] at hsigned
        exact hsigned
      | ok v =>
        rw [heval] at hsigned
        obtain ⟨s₁, hs₁, h⟩ := hsigned
        exact ⟨s₁, hs₁, (Option.some.inj h).symm⟩

theorem complete_power {unary : List Char → Result α}
    (hunary : Complete A (Derives .unary) (fun _ => False) unary) (depth : ℕ) :
    Complete A (Derives .power) (· = .pow) (parsePower A unary depth) := by
  induction depth with
  | zero => intro t w toks s r _ _ _ h; exact absurd h (by simp [parsePower])
  | succ depth ih =>
    intro t w toks s r hd hstops hs h
    unfold parsePower at h
    cases hd with
    | unary hd =>
      have hbase := hunary.andThen hd (hstops.weaken fun _ => False.elim) hs h
      cases heval : eval A t with
      | error e =>
        rw [heval] at hbase
        exact hbase
      | ok v =>
        rw [heval] at hbase
        obtain ⟨s₁, hs₁, h⟩ := hbase
        have hcaret : peek s₁ ≠ '^' := hstops.peek_ne hs₁ rfl
        rw [if_neg hcaret] at h
        exact ⟨_, hs₁.to_skipWs, (Option.some.inj h).symm⟩
    | @powerOp b e w₁ w₂ hd₁ hd₂ =>
      rw [List.append_assoc, List.cons_append] at hs
      have hbase := hunary.andThen hd₁ (by simp [Stops]) hs h
      rw [eval]
      cases heval : eval A b with
      | error err =>
        rw [heval] at hbase
        exact hbase
      | ok base =>
        rw [heval] at hbase
        obtain ⟨s₁, hs₁, h⟩ := hbase
        obtain ⟨hcaret, hright⟩ := hs₁.char_inv rfl
        have hcaret : peek s₁ = '^' := hcaret
        rw [if_pos hcaret] at h
        have hexp := ih.andThen hd₂ hstops hright h
        cases heval₂ : eval A e with
        | error err =>
          rw [heval₂] at hexp
          exact hexp
        | ok exp =>
          rw [heval₂] at hexp
          obtain ⟨s₂, hs₂, h⟩ := hexp
          exact ⟨s₂, hs₂, (Option.some.inj h).symm⟩

section Chain

variable {ops : Char → Option Op} {IsOp : Op → Prop} {D : Tree → List Token → Prop}
  {operand : List Char → Result α} {depth : ℕ}

/-- The first operand and a part of the loop: the chain has been read, and
    the loop is behind it. -/
theorem complete_prefix (hops : Reads ops IsOp) (hoperand : Complete A D takes operand)
    (hnot : ∀ o, IsOp o → ¬takes o) (hd : LeftChain IsOp D t w) (hstops : Stops takes toks)
    (hs : Spells (w ++ toks) s) (h : parseChain A ops operand depth s = some r) :
    match eval A t with
    | .error e => r = .error e
    | .ok v => ∃ s' depth, Spells toks s' ∧ chainLoop A ops operand depth v s' = some r := by
  induction hd generalizing toks with
  | @single t w hd =>
    have hfirst := hoperand.andThen hd hstops hs h
    cases heval : eval A t with
    | error e =>
      rw [heval] at hfirst
      exact hfirst
    | ok v =>
      rw [heval] at hfirst
      obtain ⟨s₁, hs₁, h⟩ := hfirst
      exact ⟨s₁, depth, hs₁, h⟩
  | @snoc o l e w₁ w₂ hop hl hr ih =>
    rw [List.append_assoc, List.cons_append] at hs
    have hstop : Stops takes (.op o :: (w₂ ++ toks)) := by
      intro tok htok
      obtain rfl := Option.some.inj htok
      exact .inr ⟨o, rfl, hnot o hop⟩
    have hloop := ih hstop hs
    rw [eval]
    cases heval : eval A l with
    | error err =>
      rw [heval] at hloop
      exact hloop
    | ok left =>
      rw [heval] at hloop
      obtain ⟨s₁, depth₁, hs₁, hloop⟩ := hloop
      -- one more turn of the loop
      obtain ⟨hpeek, hright⟩ := hs₁.char_inv rfl
      cases depth₁ with
      | zero => exact absurd hloop (by simp [chainLoop])
      | succ depth₁ =>
        rw [chainLoop, (hops _ _).mpr ⟨hpeek, hop⟩] at hloop
        have hnext := hoperand.andThen hr hstops hright hloop
        cases heval₂ : eval A e with
        | error err =>
          rw [heval₂] at hnext
          exact hnext
        | ok right =>
          rw [heval₂] at hnext
          obtain ⟨s₂, hs₂, hloop⟩ := hnext
          show match A.apply o left right with
            | .error e => r = .error e
            | .ok v => ∃ s' depth, Spells toks s' ∧ chainLoop A ops operand depth v s' = some r
          cases happly : A.apply o left right with
          | error err =>
            rw [happly] at hloop
            exact (Option.some.inj hloop).symm
          | ok v =>
            rw [happly] at hloop
            exact ⟨s₂, depth₁, hs₂, hloop⟩

theorem complete_chain (hops : Reads ops IsOp) (hoperand : Complete A D takes operand)
    (hnot : ∀ o, IsOp o → ¬takes o) :
    Complete A (LeftChain IsOp D) (fun o => IsOp o ∨ takes o) (parseChain A ops operand depth) := by
  intro t w toks s r hd hstops hs h
  have hloop := complete_prefix hops hoperand hnot hd (hstops.weaken fun _ => .inr) hs h
  cases heval : eval A t with
  | error e =>
    rw [heval] at hloop
    exact hloop
  | ok v =>
    rw [heval] at hloop
    obtain ⟨s₁, depth₁, hs₁, hloop⟩ := hloop
    have hend : ops (peek s₁) = none := by
      cases hop : ops (peek s₁) with
      | none => rfl
      | some o =>
        obtain ⟨hpeek, hisop⟩ := (hops _ _).mp hop
        exact absurd hpeek (hstops.peek_ne hs₁ (.inl hisop))
    cases depth₁ with
    | zero => exact absurd hloop (by simp [chainLoop])
    | succ depth₁ =>
      rw [chainLoop, hend] at hloop
      exact ⟨_, hs₁.to_skipWs, (Option.some.inj hloop).symm⟩

end Chain

/-- **Completeness of `parse_expr`.** -/
theorem complete_expr (depth : ℕ) :
    Complete A (Derives .expr) (fun _ => True) (parseExpr A size depth) := by
  induction depth with
  | zero => intro t w toks s r _ _ _ h; exact absurd h (by simp [parseExpr])
  | succ depth ih =>
    have hterm : Complete A (Derives .term) (fun o => IsTermOp o ∨ o = .pow)
        (termProc A size depth) := by
      intro t w toks s r hd hstops hs h
      refine complete_chain termOps_reads
        (complete_power (complete_unary (complete_atom ih) _) _) ?_ t w toks s r hd.termChain
        hstops hs h
      rintro o (rfl | rfl) <;> decide
    intro t w toks s r hd hstops hs h
    rw [parseExpr_succ] at h
    refine complete_chain exprOps_reads hterm ?_ t w toks s r hd.exprChain
      (hstops.weaken fun _ _ => trivial) hs h
    rintro o (rfl | rfl) <;> simp [IsTermOp]

/-! ### Termination -/

/-- The bound on the depth is large enough for so much input. -/
def Total (n : ℕ) (p : List Char → Result α) : Prop := ∀ s, s.length ≤ n → p s ≠ none

/-- What is returned is behind something that has been read. -/
def Shrinks (p : List Char → Result α) : Prop :=
  ∀ s v s', p s = some (.ok (v, s')) → s'.length < s.length

theorem SoundAt.shrinks {D : Tree → List Token → Prop} {p : List Char → Result α}
    (h : ∀ s, SoundAt A D p s) : Shrinks p := by
  intro s v s' hp
  obtain ⟨-, -, -, -, hlt, -⟩ := h s v s' hp
  exact hlt

variable {n depth : ℕ}

theorem total_atom {expr : List Char → Result α} (hexpr : ∀ s, s.length < n → expr s ≠ none) :
    Total n (parseAtom A size expr) := by
  intro s hle
  unfold parseAtom
  split
  · next hparen =>
    have hlt := (consume_spec hparen (by decide)).2
    refine Result.andThen_ne_none (hexpr _ (by omega)) ?_
    intro v s' _
    split <;> simp
  · unfold parseNumber
    simp only
    split <;> simp [Result.of]

theorem total_unary {atom : List Char → Result α} (hatom : Total n atom) :
    ∀ s, s.length ≤ n → s.length < depth → parseUnary A atom depth s ≠ none := by
  induction depth with
  | zero => intro s _ hlt; exact absurd hlt (Nat.not_lt_zero _)
  | succ depth ih =>
    intro s hle hlt
    unfold parseUnary
    split
    · next hminus =>
      have hread := (consume_spec hminus (by decide)).2
      refine Result.andThen_ne_none (ih _ (by omega) (by omega)) ?_
      simp
    · exact hatom s hle

theorem total_power {unary : List Char → Result α} (hunary : Total n unary)
    (hshrinks : Shrinks unary) :
    ∀ s, s.length ≤ n → s.length < depth → parsePower A unary depth s ≠ none := by
  induction depth with
  | zero => intro s _ hlt; exact absurd hlt (Nat.not_lt_zero _)
  | succ depth ih =>
    intro s hle hlt
    unfold parsePower
    refine Result.andThen_ne_none (hunary s hle) ?_
    intro base s₁ hbase
    have hlt₁ := hshrinks s base s₁ hbase
    split
    · next hcaret =>
      have hread := (consume_spec hcaret (by decide)).2
      refine Result.andThen_ne_none (ih _ (by omega) (by omega)) ?_
      simp
    · simp

theorem total_loop {ops : Char → Option Op} {IsOp : Op → Prop} {operand : List Char → Result α}
    (hops : Reads ops IsOp) (hoperand : Total n operand) (hshrinks : Shrinks operand) :
    ∀ left s, s.length ≤ n → s.length < depth → chainLoop A ops operand depth left s ≠ none := by
  induction depth with
  | zero => intro left s _ hlt; exact absurd hlt (Nat.not_lt_zero _)
  | succ depth ih =>
    intro left s hle hlt
    unfold chainLoop
    split
    · next op hop =>
      have hread := (consume_spec ((hops _ _).mp hop).1 op.char_ne_nul).2
      refine Result.andThen_ne_none (hoperand _ (by omega)) ?_
      intro right s₁ hright
      have hlt₁ := hshrinks _ right s₁ hright
      split
      · simp
      · exact ih _ s₁ (by omega) (by omega)
    · simp

theorem total_chain {ops : Char → Option Op} {IsOp : Op → Prop} {operand : List Char → Result α}
    (hops : Reads ops IsOp) (hoperand : Total n operand) (hshrinks : Shrinks operand)
    (hdepth : n < depth) : Total n (parseChain A ops operand depth) := by
  intro s hle
  refine Result.andThen_ne_none (hoperand s hle) ?_
  intro left s₁ hleft
  have hlt := hshrinks s left s₁ hleft
  exact total_loop hops hoperand hshrinks left s₁ (by omega) (by omega)

/-- **Termination of `parse_expr`**: its recursion is not deeper than the
    input is long. -/
theorem total_expr (depth : ℕ) : ∀ s, s.length < depth → parseExpr A size depth s ≠ none := by
  induction depth with
  | zero => intro s hlt; exact absurd hlt (Nat.not_lt_zero _)
  | succ depth ih =>
    intro s hlt
    have hunary : Total depth
        (parseUnary A (parseAtom A size (parseExpr A size depth)) (depth + 1)) :=
      fun s hle => total_unary (total_atom ih) s hle (by omega)
    have hsound : ∀ s, SoundAt A (Derives .unary)
        (parseUnary A (parseAtom A size (parseExpr A size depth)) (depth + 1)) s :=
      sound_unary (fun s hminus => sound_atom (sound_expr depth) hminus) _
    have hpower : Total depth (parsePower A _ (depth + 1)) :=
      fun s hle => total_power hunary (SoundAt.shrinks hsound) s hle (by omega)
    have hterm : Total depth (termProc A size depth) :=
      total_chain termOps_reads hpower (SoundAt.shrinks (sound_power hsound _)) (by omega)
    rw [parseExpr_succ]
    exact total_chain exprOps_reads hterm
      (SoundAt.shrinks (sound_chain termOps_reads (sound_power hsound _) _)) (by omega) s (by omega)

/-! ### The Parser -/

theorem parse_terminates (A : Arithmetic α) (input : List Char) : parse A input ≠ none := by
  have htotal := @total_expr _ A input.length (input.length + 1) input (Nat.lt_succ_self _)
  unfold parse
  split
  · next hnone => exact absurd hnone htotal
  · simp
  · simp only
    split <;> simp

/-- What is accepted derives, and the value is that of its tree. -/
theorem parse_sound {input : List Char} {v : α} (h : parse A input = some (.ok v)) :
    ∃ toks t, Spells toks input ∧ Derives .expr t toks ∧ eval A t = .ok v := by
  unfold parse at h
  split at h
  · exact absurd h (by simp)
  · exact absurd h (by simp)
  · next result s hexpr =>
    simp only at h
    split at h
    · exact absurd h (by simp)
    · next hend =>
      obtain ⟨t, w, hd, heval, -, hspells⟩ := sound_expr _ _ _ _ hexpr
      rw [not_not] at hend
      have hnil : Spells [] s := Spells.of_skipWs (hend ▸ .nil)
      have hall := hspells [] hnil
      rw [List.append_nil] at hall
      simp only [Option.some.injEq, Except.ok.injEq] at h
      exact ⟨w, t, hall, hd, h ▸ heval⟩

/-- On an input that derives, the parser does what the tree says. -/
theorem parse_complete {input : List Char} (hs : Spells toks input) (hd : Derives .expr t toks) :
    parse A input = some (eval A t) := by
  obtain ⟨r, hr⟩ := Option.ne_none_iff_exists'.mp
    (@total_expr _ A input.length (input.length + 1) input (Nat.lt_succ_self _))
  have hyields := @complete_expr _ A input.length (input.length + 1) t toks [] input r hd
    (by simp [Stops]) (by rwa [List.append_nil]) hr
  unfold parse
  rw [hr]
  cases heval : eval A t with
  | error e =>
    rw [heval] at hyields
    obtain rfl : r = .error e := hyields
    rfl
  | ok v =>
    rw [heval] at hyields
    obtain ⟨s', hs', rfl⟩ := hyields
    simp [hs'.nil_inv]

theorem Tree.Printable.wrap {c : Category} (h : ∀ text, .number text ∈ t.tokens → NumberText text) :
    ∀ text, .number text ∈ c.wrap t t.tokens → NumberText text := by
  intro text hmem
  unfold Category.wrap at hmem
  split at hmem
  · exact h text hmem
  · exact h text (by simpa using hmem)

theorem Tree.Printable.tokens (h : t.Printable) :
    ∀ text, .number text ∈ t.tokens → NumberText text := by
  induction t with
  | number text =>
    intro text' hmem
    obtain rfl : text' = text := by simpa [Tree.tokens] using hmem
    exact h
  | neg t ih =>
    intro text hmem
    obtain hop | hmem := List.mem_cons.mp hmem
    · exact absurd hop (by simp)
    · exact Printable.wrap (ih h) text hmem
  | binary o l r ihl ihr =>
    intro text hmem
    obtain hl | hmem := List.mem_append.mp hmem
    · exact Printable.wrap (ihl h.1) text hl
    · obtain hop | hr := List.mem_cons.mp hmem
      · exact absurd hop (by simp)
      · exact Printable.wrap (ihr h.2) text hr

/-- **The calculator and its grammar.** `parse` returns. It accepts an
    input exactly when its tokens derive from the grammar and the tree can
    be evaluated, with the value of the tree; on an input that derives it
    throws what the evaluation throws. A printed tree is read back with
    the value of the tree. -/
theorem parse_spec (A : Arithmetic α) (input : List Char) :
    parse A input ≠ none ∧
    (∀ v, parse A input = some (.ok v) ↔
      ∃ toks t, Spells toks input ∧ Derives .expr t toks ∧ eval A t = .ok v) ∧
    (∀ toks t, Spells toks input → Derives .expr t toks → parse A input = some (eval A t)) ∧
    ∀ t : Tree, t.Printable → parse A t.print = some (eval A t) := by
  refine ⟨parse_terminates A input, ?_, fun _ _ => parse_complete, ?_⟩
  · intro v
    constructor
    · exact parse_sound
    · rintro ⟨toks, t, hs, hd, heval⟩
      rw [parse_complete hs hd, heval]
  · intro t ht
    exact parse_complete (spells_spaced ht.tokens)
      (t.tokens_derives.loosen (Nat.zero_le _))

end Calculator

end Forge
