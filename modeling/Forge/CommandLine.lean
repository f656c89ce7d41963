import Mathlib.Algebra.Ring.Int.Defs
import Mathlib.Data.List.Induction

/-! # The Command Line

  The loop of `main` over its arguments (`main.cpp`). An option takes the
  next argument as its value, whatever it looks like; what comes later
  overrides what came before.

  - `Setting`: an option with its value, or a switch;
  - `Stops`: where and how the loop ends;
  - `parse_iff`: what the loop makes of all arguments.
-/

namespace Forge

namespace CommandLine

/-! ### The Loop -/

/-- The options with a value. -/
inductive Field where
  | configPath
  | workflow
  | prompt
  | toolsPath
  | model
  | apiKey
  | apiBase
  | maxIterations
  deriving DecidableEq

inductive Switch where
  | serve
  | verbose
  deriving DecidableEq

structure Options where
  configPath : String := ""
  workflow : String := "react"
  prompt : String := ""
  toolsPath : String := ""
  model : String := ""
  apiKey : String := ""
  apiBase : String := ""
  maxIterations : ℤ := -1
  verbose : Bool := false
  serve : Bool := false
  deriving DecidableEq

def isHelp (arg : String) : Bool := arg = "-h" || arg = "--help"

def field? (arg : String) : Option Field :=
  if arg = "-c" ∨ arg = "--config" then some .configPath
  else if arg = "-w" ∨ arg = "--workflow" then some .workflow
  else if arg = "-p" ∨ arg = "--prompt" then some .prompt
  else if arg = "-t" ∨ arg = "--tools" then some .toolsPath
  else if arg = "-m" ∨ arg = "--model" then some .model
  else if arg = "-k" ∨ arg = "--api-key" then some .apiKey
  else if arg = "--api-base" then some .apiBase
  else if arg = "--max-iterations" then some .maxIterations
  else none

def switch? (arg : String) : Option Switch :=
  if arg = "-s" ∨ arg = "--serve" then some .serve
  else if arg = "-v" ∨ arg = "--verbose" then some .verbose
  else none

/-- The white space of the C locale. -/
def isSpace (c : Char) : Bool := c ∈ [' ', '\t', '\n', '\x0b', '\x0c', '\r']

/-- The digits in front, within the range of `int`. -/
def digitsInt (negative : Bool) (s : List Char) : Option ℤ :=
  let ds := s.takeWhile Char.isDigit
  let n : ℤ := if negative then -Nat.ofDigitChars 10 ds 0 else Nat.ofDigitChars 10 ds 0
  if ds ≠ [] ∧ -2 ^ 31 ≤ n ∧ n < 2 ^ 31 then some n else none

/-- `std::stoi`; `none` when it throws. -/
def stoi (s : String) : Option ℤ :=
  match s.toList.dropWhile isSpace with
  | '-' :: ds => digitsInt true ds
  | '+' :: ds => digitsInt false ds
  | ds => digitsInt false ds

def Field.set (text : String) (o : Options) : Field → Option Options
  | .configPath => some { o with configPath := text }
  | .workflow => some { o with workflow := text }
  | .prompt => some { o with prompt := text }
  | .toolsPath => some { o with toolsPath := text }
  | .model => some { o with model := text }
  | .apiKey => some { o with apiKey := text }
  | .apiBase => some { o with apiBase := text }
  | .maxIterations => (stoi text).map fun n => { o with maxIterations := n }

def Switch.set (o : Options) : Switch → Options
  | .serve => { o with serve := true }
  | .verbose => { o with verbose := true }

inductive Outcome where
  | options (o : Options)
  /-- `return 0` -/
  | help
  /-- "Missing value for ", `exit(1)` -/
  | missing (arg : String)
  /-- "Unknown option: ", `return 1` -/
  | unknown (arg : String)
  /-- `std::stoi` throws, and nobody catches it. -/
  | threw (text : String)
  deriving DecidableEq

def parse (o : Options) : List String → Outcome
  | [] => .options o
  | arg :: rest =>
      if isHelp arg then .help
      else
        match field? arg with
        | some f =>
            match rest with
            | [] => .missing arg
            | text :: rest =>
                match f.set text o with
                | some o => parse o rest
                | none => .threw text
        | none =>
            match switch? arg with
            | some sw => parse (sw.set o) rest
            | none => .unknown arg

/-! ### Settings -/

/-- An option and its value, or a switch. -/
inductive Setting where
  | value {arg : String} {f : Field} (h : field? arg = some f) (text : String)
  | switch {arg : String} {sw : Switch} (h : switch? arg = some sw)

/-- How it is written. -/
def Setting.args : Setting → List String
  | @value arg _ _ text => [arg, text]
  | @switch arg _ _ => [arg]

def Setting.apply (o : Options) : Setting → Option Options
  | @value _ f _ text => f.set text o
  | @switch _ sw _ => some (sw.set o)

/-- How the loop ends, before `rest`. -/
inductive Stops (o : Options) : List String → Outcome → Prop where
  | done : Stops o [] (.options o)
  | help {arg rest} : isHelp arg → Stops o (arg :: rest) .help
  | missing {arg f} : field? arg = some f → Stops o [arg] (.missing arg)
  | threw {arg f text rest} : field? arg = some f → f.set text o = none →
      Stops o (arg :: text :: rest) (.threw text)
  | unknown {arg rest} : isHelp arg = false → field? arg = none → switch? arg = none →
      Stops o (arg :: rest) (.unknown arg)

theorem isHelp_of_field {arg : String} {f : Field} (h : field? arg = some f) :
    isHelp arg = false := by
  by_contra hhelp
  simp only [Bool.not_eq_false, isHelp, Bool.or_eq_true, decide_eq_true_eq] at hhelp
  have hshort : field? "-h" = none := by decide
  have hlong : field? "--help" = none := by decide
  obtain rfl | rfl := hhelp
  · simp [hshort] at h
  · simp [hlong] at h

theorem of_switch {arg : String} {sw : Switch} (h : switch? arg = some sw) :
    isHelp arg = false ∧ field? arg = none := by
  unfold switch? at h
  split at h
  · next harg => obtain rfl | rfl := harg <;> decide
  · split at h
    · next harg => obtain rfl | rfl := harg <;> decide
    · cases h

variable {o o' : Options} {args rest : List String} {r : Outcome} {settings : List Setting}

/-- A setting is read as a whole. -/
theorem parse_setting {s : Setting} (h : s.apply o = some o') :
    parse o (s.args ++ rest) = parse o' rest := by
  cases s with
  | value hf text =>
    simp only [Setting.apply] at h
    simp [Setting.args, parse, isHelp_of_field hf, hf, h]
  | switch hsw =>
    obtain ⟨hhelp, hf⟩ := of_switch hsw
    simp only [Setting.apply, Option.some.injEq] at h
    simp [Setting.args, parse, hhelp, hf, hsw, h]

theorem parse_stops (h : Stops o rest r) : parse o rest = r := by
  cases h with
  | done => rfl
  | help hhelp => simp [parse, hhelp]
  | missing hf => simp [parse, isHelp_of_field hf, hf]
  | threw hf hset => simp [parse, isHelp_of_field hf, hf, hset]
  | unknown hhelp hf hsw => simp [parse, hhelp, hf, hsw]

/-- The options after some settings; none when one of them throws. -/
def applyAll (o : Options) (settings : List Setting) : Option Options :=
  settings.foldlM Setting.apply o

theorem parse_applyAll (h : applyAll o settings = some o') :
    parse o (settings.flatMap Setting.args ++ rest) = parse o' rest := by
  induction settings generalizing o with
  | nil =>
    cases h
    rfl
  | cons s settings ih =>
    obtain ⟨o₁, hs, hrest⟩ := Option.bind_eq_some_iff.mp h
    rw [List.flatMap_cons, List.append_assoc, parse_setting hs]
    exact ih hrest

/-- The loop goes through settings until it stops. -/
theorem exists_settings (o : Options) (args : List String) : ∃ settings rest o',
    args = settings.flatMap Setting.args ++ rest ∧ applyAll o settings = some o' ∧
      Stops o' rest (parse o args) := by
  fun_induction parse o args with
  | case1 o => exact ⟨[], [], o, rfl, rfl, .done⟩
  | case2 o arg rest hhelp => exact ⟨[], _, o, rfl, rfl, .help hhelp⟩
  | case3 o arg hhelp f hf => exact ⟨[], _, o, rfl, rfl, .missing hf⟩
  | case4 o arg hhelp f hf text rest o₁ hset ih =>
    obtain ⟨settings, rest', o', rfl, hall, hstops⟩ := ih
    exact ⟨.value hf text :: settings, rest', o', rfl,
      Option.bind_eq_some_iff.mpr ⟨o₁, hset, hall⟩, hstops⟩
  | case5 o arg hhelp f hf text rest hset => exact ⟨[], _, o, rfl, rfl, .threw hf hset⟩
  | case6 o arg rest hhelp hf sw hsw ih =>
    obtain ⟨settings, rest', o', rfl, hall, hstops⟩ := ih
    exact ⟨.switch hsw :: settings, rest', o', rfl, hall, hstops⟩
  | case7 o arg rest hhelp hf hsw =>
    exact ⟨[], _, o, rfl, rfl, .unknown (by simpa using hhelp) hf hsw⟩

/-! ### The Last One Wins -/

def Setting.text? (f : Field) : Setting → Option String
  | @value _ f' _ text => if f' = f then some text else none
  | .switch _ => none

/-- The values that are given to an option, in their order. -/
def texts (f : Field) (settings : List Setting) : List String :=
  settings.filterMap (Setting.text? f)

def Setting.isSwitch (sw : Switch) : Setting → Bool
  | @switch _ sw' _ => sw' = sw
  | .value _ _ => false

/-- The text an option has been set to. -/
def Options.get (o : Options) : Field → String
  | .configPath => o.configPath
  | .workflow => o.workflow
  | .prompt => o.prompt
  | .toolsPath => o.toolsPath
  | .model => o.model
  | .apiKey => o.apiKey
  | .apiBase => o.apiBase
  | .maxIterations => ""

/-- The options are the last values given, and the defaults where there is
    none. -/
structure Reads (settings : List Setting) (o : Options) : Prop where
  text : ∀ f, f ≠ .maxIterations →
    o.get f = (texts f settings).getLast?.getD (({} : Options).get f)
  numbers : ∀ text ∈ texts .maxIterations settings, (stoi text).isSome
  maxIterations : o.maxIterations = ((texts .maxIterations settings).getLast?.bind stoi).getD (-1)
  serve : o.serve = settings.any (Setting.isSwitch .serve)
  verbose : o.verbose = settings.any (Setting.isSwitch .verbose)

/-- Options are what they have been set to. -/
theorem Reads.unique (h : Reads settings o) (h' : Reads settings o') : o = o' := by
  have htext : ∀ f, f ≠ .maxIterations → o.get f = o'.get f := fun f hf =>
    (h.text f hf).trans (h'.text f hf).symm
  obtain ⟨c, w, p, t, m, k, a, n, v, s⟩ := o
  obtain ⟨c', w', p', t', m', k', a', n', v', s'⟩ := o'
  have hc : c = c' := htext .configPath (by decide)
  have hw : w = w' := htext .workflow (by decide)
  have hp : p = p' := htext .prompt (by decide)
  have ht : t = t' := htext .toolsPath (by decide)
  have hm : m = m' := htext .model (by decide)
  have hk : k = k' := htext .apiKey (by decide)
  have ha : a = a' := htext .apiBase (by decide)
  have hn : n = n' := h.maxIterations.trans h'.maxIterations.symm
  have hv : v = v' := h.verbose.trans h'.verbose.symm
  have hs : s = s' := h.serve.trans h'.serve.symm
  rw [hc, hw, hp, ht, hm, hk, ha, hn, hv, hs]

theorem texts_append (f : Field) (settings settings' : List Setting) :
    texts f (settings ++ settings') = texts f settings ++ texts f settings' :=
  List.filterMap_append

/-- What `set` changes. -/
theorem Field.set_spec {f : Field} {text : String} (h : f.set text o = some o') :
    (∀ g, g ≠ .maxIterations → o'.get g = if f = g then text else o.get g) ∧
      (f = .maxIterations ∧ stoi text = some o'.maxIterations ∨
        f ≠ .maxIterations ∧ o'.maxIterations = o.maxIterations) ∧
      o'.serve = o.serve ∧ o'.verbose = o.verbose := by
  cases f
  case maxIterations =>
    obtain ⟨n, hn, rfl⟩ := Option.map_eq_some_iff.mp h
    refine ⟨?_, .inl ⟨rfl, hn⟩, rfl, rfl⟩
    intro g hg
    rw [if_neg (Ne.symm hg)]
    cases g <;> rfl
  all_goals
    cases h
    refine ⟨?_, .inr ⟨by decide, rfl⟩, rfl, rfl⟩
    intro g _
    cases g <;> rfl

/-- One more setting. -/
theorem Reads.apply {s : Setting} (h : Reads settings o) (hs : s.apply o = some o') :
    Reads (settings ++ [s]) o' := by
  cases s with
  | @value arg f hf text =>
    obtain ⟨hget, hmax, hserve, hverbose⟩ := Field.set_spec hs
    have hone : ∀ g, texts g [.value hf text] = if f = g then [text] else [] := by
      intro g
      by_cases hfg : f = g <;> simp [texts, Setting.text?, hfg]
    refine ⟨?_, ?_, ?_, ?_, ?_⟩
    · intro g hg
      rw [hget g hg, texts_append, hone]
      by_cases hfg : f = g
      · simp [hfg]
      · simpa [hfg] using h.text g hg
    · intro t ht
      rw [texts_append, hone, List.mem_append] at ht
      obtain hold | hnew := ht
      · exact h.numbers t hold
      · obtain ⟨hf', hn⟩ | ⟨hne, -⟩ := hmax
        · rw [if_pos hf', List.mem_singleton] at hnew
          simp [hnew, hn]
        · simp [hne] at hnew
    · rw [texts_append, hone]
      obtain ⟨hf', hn⟩ | ⟨hne, hsame⟩ := hmax
      · simp [hf', hn]
      · simpa [hne, hsame] using h.maxIterations
    · simpa [hserve, Setting.isSwitch] using h.serve
    · simpa [hverbose, Setting.isSwitch] using h.verbose
  | @switch arg sw hsw =>
    obtain rfl : sw.set o = o' := Option.some.inj hs
    have hnone : ∀ g, texts g [.switch hsw] = [] := fun g => rfl
    have hget : ∀ g, (sw.set o).get g = o.get g := by
      intro g
      cases sw <;> cases g <;> rfl
    have hmax : (sw.set o).maxIterations = o.maxIterations := by cases sw <;> rfl
    refine ⟨?_, ?_, ?_, ?_, ?_⟩
    · intro g hg
      rw [hget, texts_append, hnone, List.append_nil]
      exact h.text g hg
    · intro t ht
      rw [texts_append, hnone, List.append_nil] at ht
      exact h.numbers t ht
    · rw [texts_append, hnone, List.append_nil, hmax]
      exact h.maxIterations
    · cases sw <;> simp [Switch.set, Setting.isSwitch, h.serve]
    · cases sw <;> simp [Switch.set, Setting.isSwitch, h.verbose]

theorem applyAll_snoc (s : Setting) :
    applyAll o (settings ++ [s]) = (applyAll o settings).bind fun o => s.apply o := by
  simp [applyAll]

theorem Reads.of_applyAll (h : applyAll {} settings = some o) : Reads settings o := by
  induction settings using List.reverseRecOn generalizing o with
  | nil =>
    obtain rfl : ({} : Options) = o := Option.some.inj h
    exact ⟨fun f hf => rfl, by simp [texts], rfl, rfl, rfl⟩
  | append_singleton settings s ih =>
    rw [applyAll_snoc] at h
    obtain ⟨o₁, hfirst, hs⟩ := Option.bind_eq_some_iff.mp h
    exact (ih hfirst).apply hs

/-- Only a number that is none makes a setting throw. -/
theorem applyAll_isSome (h : ∀ text ∈ texts .maxIterations settings, (stoi text).isSome) :
    (applyAll o settings).isSome := by
  induction settings generalizing o with
  | nil => rfl
  | cons s settings ih =>
    have hrest : ∀ text ∈ texts .maxIterations settings, (stoi text).isSome := fun text ht =>
      h text (by rw [← List.singleton_append, texts_append]; exact List.mem_append_right _ ht)
    obtain ⟨o₁, hs⟩ : ∃ o₁, s.apply o = some o₁ := by
      cases s with
      | switch hsw => exact ⟨_, rfl⟩
      | @value arg f hf text =>
        cases f
        case maxIterations =>
          obtain ⟨n, hn⟩ := Option.isSome_iff_exists.mp (h text (by simp [texts, Setting.text?]))
          exact ⟨{ o with maxIterations := n }, by simp [Setting.apply, Field.set, hn]⟩
        all_goals exact ⟨_, rfl⟩
    show ((s.apply o).bind fun o => applyAll o settings).isSome
    rw [hs]
    exact ih hrest

theorem applyAll_iff : applyAll {} settings = some o ↔ Reads settings o := by
  constructor
  · exact Reads.of_applyAll
  · intro h
    obtain ⟨o', ho'⟩ := Option.isSome_iff_exists.mp (applyAll_isSome (o := {}) h.numbers)
    rw [ho', (Reads.of_applyAll ho').unique h]

/-- **The command line.** The arguments are settings up to where the loop
    ends: at the end, at a request for help, at an option without its value
    or one that is unknown, or at a number that is none. What is returned
    are the last values given. -/
theorem parse_iff (args : List String) (r : Outcome) :
    parse {} args = r ↔ ∃ settings rest o, args = settings.flatMap Setting.args ++ rest ∧
      Reads settings o ∧ Stops o rest r := by
  constructor
  · rintro rfl
    obtain ⟨settings, rest, o, hargs, hall, hstops⟩ := exists_settings {} args
    exact ⟨settings, rest, o, hargs, applyAll_iff.mp hall, hstops⟩
  · rintro ⟨settings, rest, o, rfl, hreads, hstops⟩
    rw [parse_applyAll (applyAll_iff.mpr hreads)]
    exact parse_stops hstops

end CommandLine

end Forge
