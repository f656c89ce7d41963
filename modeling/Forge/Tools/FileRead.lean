import Forge.Framework.Words
import Forge.Utils.Json
import Mathlib.Data.List.Induction

/-! # File Read Tool

  The handler of `file_read` (`tools/builtin/file_read.h`). A path is a
  character for each byte. `std::filesystem::canonical` and the opening of
  a file are parameters; a value of the wrong type in the arguments throws
  (`none`), every other exception is an error with its text.

  - `escapes`: the test that keeps the tool inside its sandbox;
  - `Stream`, `getline`, `readLoop`: the loop over the lines;
  - `escapes_components_iff`, `resolve_contained`: what the test lets through;
  - `readLines_iff`: when the loop reports rightly that it has left lines
    out.
-/

namespace Forge

namespace FileRead

/-! ### The Sandbox -/

/-- The path is not the sandbox, and does not begin with it and a `/`. -/
def escapes (canonical sandbox : List Char) : Bool :=
  canonical ≠ sandbox &&
    (canonical.length ≤ sandbox.length ||
      canonical.take sandbox.length ≠ sandbox ||
      canonical[sandbox.length]? ≠ some '/')

/-- `operator/` of paths. -/
def appendPath (dir path : List Char) : List Char :=
  if dir.getLast? = some '/' then dir ++ path else dir ++ '/' :: path

/-! ### The Lines -/

/-- A `std::ifstream`: what is left to read, `eofbit` and `failbit`. -/
structure Stream where
  rest : List Char
  eof : Bool := false
  fail : Bool := false
  deriving DecidableEq

def isNewline (c : Char) : Bool := c = '\n'

/-- `std::getline`: the line, and the stream behind it. -/
def Stream.getline (s : Stream) : List Char × Stream :=
  if s.eof || s.fail then ([], { s with fail := true })
  else
    let line := s.rest.takeWhile fun c => !isNewline c
    match s.rest.dropWhile fun c => !isNewline c with
    | _ :: rest => (line, { s with rest := rest })
    | [] => (line, { rest := [], eof := true, fail := line.isEmpty })

/-- `while (std::getline(ifs, line) && count < max_lines)`. Every turn
    reads at least one character. -/
def readLoop (maxLines : ℤ) : ℕ → Stream → ℕ → List Char → Stream × ℕ × List Char
  | 0, s, count, result => (s, count, result)
  | turns + 1, s, count, result =>
      let (line, s) := s.getline
      if !s.fail && count < maxLines then
        readLoop maxLines turns s (count + 1) (result ++ line ++ ['\n'])
      else (s, count, result)

/-- What is appended when there is more. -/
def notice (maxLines : ℤ) : List Char :=
  ("\n... (truncated at " ++ toString maxLines ++ " lines)\n").toList

/-- What is returned for the content of a file. -/
def readLines (content : List Char) (maxLines : ℤ) : List Char :=
  let r := readLoop maxLines (content.length + 1) { rest := content } 0 []
  if (r.2.1 : ℤ) = maxLines ∧ r.1.eof = false then r.2.2 ++ notice maxLines else r.2.2

/-! ### The Handler -/

/-- The file system: `std::filesystem::canonical`, and what is in a file
    that can be opened. -/
structure Files where
  canonical : List Char → Option (List Char)
  read : List Char → Option (List Char)

/-- The canonical path of what the arguments ask for. -/
def resolve (fs : Files) (sandboxDir path : List Char) : Except String (List Char) :=
  if path = [] then .error "Missing 'path' parameter"
  else if sandboxDir = [] then
    match fs.canonical path with
    | some canonical => .ok canonical
    | none => .error ("Cannot resolve path: " ++ String.ofList path)
  else
    match fs.canonical sandboxDir with
    | none => .error ("Invalid sandbox directory: " ++ String.ofList sandboxDir)
    | some sandbox =>
        let requested := if path.head? = some '/' then path else appendPath sandbox path
        match fs.canonical requested with
        | none => .error ("Cannot resolve path: " ++ String.ofList path)
        | some canonical =>
            if escapes canonical sandbox then
              .error ("Path escapes sandbox: " ++ String.ofList path)
            else .ok canonical

def readFile (fs : Files) (sandboxDir path : List Char) (maxLines : ℤ) :
    Except String (List Char) :=
  match resolve fs sandboxDir path with
  | .error e => .error e
  | .ok canonical =>
      match fs.read canonical with
      | none => .error ("Cannot open file: " ++ String.ofList canonical)
      | some content => .ok (readLines content maxLines)

/-- The handler, with its arguments parsed. -/
def handler (fs : Files) (sandboxDir : List Char) (args : Json) :
    Option (Except String (List Char)) :=
  match args.value Json.getString "path" "", args.value Json.getInt "max_lines" 200 with
  | some path, some maxLines => some (readFile fs sandboxDir path.toList maxLines)
  | _, _ => none

/-! ### Canonical Paths -/

/-- A name between two `/` of a canonical path. -/
structure Name (n : List Char) : Prop where
  nonempty : n ≠ []
  slash : '/' ∉ n
  dot : n ≠ ['.']
  dotDot : n ≠ ['.', '.']

/-- What `std::filesystem::canonical` returns. -/
structure CanonicalPath where
  names : List (List Char)
  valid : ∀ n ∈ names, Name n

def isSlash (c : Char) : Bool := c = '/'

/-- The names, each behind its `/`. -/
def pathString (names : List (List Char)) : List Char := names.flatMap fun n => '/' :: n

/-- The path as a string. The root is the one path that ends with `/`. -/
def CanonicalPath.string (p : CanonicalPath) : List Char :=
  if p.names = [] then ['/'] else pathString p.names

/-- The names of a path, for which the root directory counts nothing. -/
def components (path : List Char) : List (List Char) := path.words isSlash

variable {canonical sandbox : List Char} {names names' : List (List Char)}

theorem pathString_append (names names' : List (List Char)) :
    pathString (names ++ names') = pathString names ++ pathString names' := List.flatMap_append

theorem components_pathString (hnames : ∀ n ∈ names, Name n) :
    components (pathString names) = names := by
  induction names using List.reverseRecOn with
  | nil => exact List.words_nil
  | append_singleton names n ih =>
    have hn := hnames n (by simp)
    have hslash : ∀ c ∈ n, isSlash c = false := by
      intro c hc
      refine decide_eq_false ?_
      rintro rfl
      exact hn.slash hc
    have hone : pathString [n] = '/' :: n := by simp [pathString]
    rw [pathString_append, hone, components, List.words_append_cons _ _ (by decide),
      List.words_singleton hn.nonempty hslash]
    exact congrArg (· ++ [n]) (ih fun n' hn' => hnames n' (by simp [hn']))

/-- The string has the names of the path. -/
theorem components_string (p : CanonicalPath) : components p.string = p.names := by
  unfold CanonicalPath.string
  split
  · next hroot =>
    rw [hroot]
    decide
  · exact components_pathString p.valid

/-- The test in terms of the two strings. -/
theorem escapes_eq_false_iff :
    escapes canonical sandbox = false ↔
      canonical = sandbox ∨ ∃ rest, canonical = sandbox ++ '/' :: rest := by
  have hform : escapes canonical sandbox = false ↔ canonical = sandbox ∨
      sandbox.length < canonical.length ∧ canonical.take sandbox.length = sandbox ∧
        canonical[sandbox.length]? = some '/' := by
    simp only [escapes, Bool.and_eq_false_iff, Bool.or_eq_false_iff, decide_eq_false_iff_not,
      not_not, not_le, and_assoc]
  rw [hform]
  constructor
  · intro h
    rcases h with heq | ⟨-, htake, hget⟩
    · exact Or.inl heq
    · right
      rw [← List.head?_drop] at hget
      obtain ⟨rest, hrest⟩ := List.head?_eq_some_iff.mp hget
      refine ⟨rest, ?_⟩
      calc canonical = canonical.take sandbox.length ++ canonical.drop sandbox.length :=
            (List.take_append_drop _ _).symm
        _ = sandbox ++ '/' :: rest := by rw [htake, hrest]
  · intro h
    rcases h with heq | ⟨rest, heq⟩
    · exact Or.inl heq
    · right
      subst heq
      simp

theorem string_eq_root_iff (p : CanonicalPath) : p.string = ['/'] ↔ p.names = [] := by
  constructor
  · intro h
    have hnames := components_string p
    rw [h] at hnames
    rw [← hnames]
    decide
  · intro h
    rw [CanonicalPath.string, if_pos h]

theorem string_of_ne {p : CanonicalPath} (hne : p.names ≠ []) : p.string = pathString p.names :=
  if_neg hne

/-- Below a sandbox that is not the root the test is right. -/
theorem escapes_of_ne_root (p s : CanonicalPath) (hs : s.names ≠ []) :
    escapes p.string s.string = false ↔ s.names <+: p.names := by
  rw [escapes_eq_false_iff]
  constructor
  · intro h
    rw [← components_string p, ← components_string s]
    rcases h with heq | ⟨rest, heq⟩
    · exact ⟨[], by rw [heq, List.append_nil]⟩
    · rw [heq]
      exact ⟨components rest, (List.words_append_cons _ _ (by decide)).symm⟩
  · intro h
    obtain ⟨more, hmore⟩ := h
    have hp : p.names ≠ [] := by
      rw [← hmore]
      exact List.append_ne_nil_of_left_ne_nil hs more
    rw [string_of_ne hp, string_of_ne hs, ← hmore, pathString_append]
    cases more with
    | nil => exact Or.inl (List.append_nil _)
    | cons n more => exact Or.inr ⟨n ++ pathString more, by simp [pathString]⟩

/-- Below the root it lets nothing through. -/
theorem escapes_of_root (p s : CanonicalPath) (hs : s.names = []) :
    escapes p.string s.string = false ↔ p.names = [] := by
  rw [(string_eq_root_iff s).mpr hs, escapes_eq_false_iff, ← string_eq_root_iff]
  constructor
  · intro h
    rcases h with heq | ⟨rest, heq⟩
    · exact heq
    -- a second `/` would be the first character of a name
    · by_contra hroot
      have hne := mt (string_eq_root_iff p).mpr hroot
      obtain ⟨n, names, hcons⟩ := List.exists_cons_of_ne_nil hne
      have hn := p.valid n (by simp [hcons])
      obtain ⟨c, n', hn'⟩ := List.exists_cons_of_ne_nil hn.nonempty
      rw [string_of_ne hne, hcons, hn'] at heq
      simp only [pathString, List.flatMap_cons, List.cons_append, List.nil_append,
        List.cons.injEq, true_and] at heq
      exact hn.slash (by rw [hn', heq.1]; exact List.mem_cons_self)
  · intro h
    exact Or.inl h

/-- **The sandbox test.** It lets exactly the paths below the sandbox
    through if and only if the sandbox is not the root, or the path is the
    root itself. -/
theorem escapes_components_iff (p s : CanonicalPath) :
    (escapes p.string s.string = false ↔ components s.string <+: components p.string) ↔
      s.string ≠ ['/'] ∨ p.string = ['/'] := by
  rw [components_string, components_string, Ne, string_eq_root_iff, string_eq_root_iff]
  by_cases hs : s.names = []
  · rw [escapes_of_root p s hs]
    simp [hs]
  · rw [escapes_of_ne_root p s hs]
    simp [hs]

/-- **Nothing outside the sandbox is read**, when canonical paths are what
    they should be. -/
theorem resolve_contained {fs : Files} {sandboxDir path : List Char}
    (hcanonical : ∀ path c, fs.canonical path = some c → ∃ p : CanonicalPath, p.string = c)
    (hdir : sandboxDir ≠ []) (hok : resolve fs sandboxDir path = .ok canonical) :
    ∃ p s : CanonicalPath, fs.canonical sandboxDir = some s.string ∧ canonical = p.string ∧
      s.names <+: p.names := by
  unfold resolve at hok
  rw [if_neg hdir] at hok
  split at hok
  · cases hok
  · split at hok
    · cases hok
    · next sandbox hsandbox =>
      dsimp only at hok
      -- whichever path is asked for, its canonical form has been tested
      generalize (if path.head? = some '/' then path else appendPath sandbox path) = requested
        at hok
      split at hok
      · cases hok
      · next canonical' hpath =>
        split at hok
        · cases hok
        · next hinside =>
          obtain rfl : canonical' = canonical := Except.ok.inj hok
          obtain ⟨s, rfl⟩ := hcanonical _ _ hsandbox
          obtain ⟨p, rfl⟩ := hcanonical _ _ hpath
          refine ⟨p, s, hsandbox, rfl, ?_⟩
          by_cases hs : s.names = []
          · rw [hs]
            exact List.nil_prefix
          · exact (escapes_of_ne_root p s hs).mp (Bool.eq_false_iff.mpr hinside)

/-- A file in the root directory. -/
def etc : CanonicalPath where
  names := ["etc".toList]
  valid := by
    intro n hn
    rw [List.mem_singleton.mp hn]
    exact ⟨by decide, by decide, by decide, by decide⟩

def root : CanonicalPath := ⟨[], by simp⟩

/-- The sandbox `/` does not contain `/etc`. -/
theorem root_rejects :
    ¬ ∀ p s : CanonicalPath,
      escapes p.string s.string = false ↔ components s.string <+: components p.string := by
  intro hall
  have hbelow : components root.string <+: components etc.string := by decide
  have hrejected : escapes etc.string root.string = true := by decide
  rw [(hall etc root).mpr hbelow] at hrejected
  cases hrejected

/-! ### The Loop over the Lines -/

variable {content line rest result : List Char} {maxLines : ℤ} {turns count : ℕ}

/-- The lines, each with its newline. -/
def text (lines : List (List Char)) : List Char := lines.flatMap fun line => line ++ ['\n']

/-- A line that a newline ends. -/
theorem getline_first (hline : ∀ c ∈ line, isNewline c = false) :
    ({ rest := line ++ '\n' :: rest } : Stream).getline = (line, { rest := rest }) := by
  have hnewline : isNewline '\n' = true := rfl
  simp only [Stream.getline, Bool.or_self, Bool.false_eq_true, if_false]
  rw [List.takeWhile_first hline hnewline, List.dropWhile_first hline hnewline]

/-- What is behind the last newline, if anything. -/
theorem getline_last (hline : ∀ c ∈ line, isNewline c = false) :
    ({ rest := line } : Stream).getline =
      (line, { rest := [], eof := true, fail := line.isEmpty }) := by
  simp only [Stream.getline, Bool.or_self, Bool.false_eq_true, if_false]
  rw [List.takeWhile_none hline, List.dropWhile_none hline]

/-- At the end of the file nothing more is read. -/
theorem readLoop_eof (hturns : turns ≠ 0) :
    readLoop maxLines turns { rest := [], eof := true } count result =
      ({ rest := [], eof := true, fail := true }, count, result) := by
  obtain ⟨turns, rfl⟩ := Nat.exists_eq_succ_of_ne_zero hturns
  simp [readLoop, Stream.getline]

/-- How many lines the loop still keeps. -/
def kept (maxLines : ℤ) (count : ℕ) (lines : List (List Char)) : ℕ :=
  min (maxLines - count).toNat lines.length

theorem kept_cons (lines : List (List Char)) : kept maxLines count (line :: lines) =
    if count < maxLines then kept maxLines (count + 1) lines + 1 else 0 := by
  unfold kept
  rw [List.length_cons]
  split <;> omega

/-- The loop, begun in front of `content` with so many lines kept, is over. -/
structure LoopEnd (content : List Char) (maxLines : ℤ) (before : ℕ) (result : List Char)
    (r : Stream × ℕ × List Char) : Prop where
  count : r.2.1 = before + kept maxLines before (content.lines isNewline)
  result : r.2.2 = result ++
    text ((content.lines isNewline).take (kept maxLines before (content.lines isNewline)))
  /-- The end of the file has not been met: there is a line more, and it is
      not a last one without a newline. -/
  eof : r.1.eof = false ↔
    kept maxLines before (content.lines isNewline) < (content.lines isNewline).length ∧
      ¬((content.lines isNewline).length = kept maxLines before (content.lines isNewline) + 1 ∧
        content.Unterminated isNewline)

/-- The line that has been read is kept. -/
theorem LoopEnd.first {r : Stream × ℕ × List Char} (hline : ∀ c ∈ line, isNewline c = false)
    (hmore : (count : ℤ) < maxLines)
    (h : LoopEnd rest maxLines (count + 1) (result ++ line ++ ['\n']) r) :
    LoopEnd (line ++ '\n' :: rest) maxLines count result r := by
  have hlines : (line ++ '\n' :: rest).lines isNewline = line :: rest.lines isNewline :=
    List.lines_first hline rfl
  have hlast := @List.unterminated_first _ isNewline rest line '\n' rfl
  constructor
  · rw [h.count, hlines, kept_cons, if_pos hmore]
    omega
  · rw [h.result, hlines, kept_cons, if_pos hmore, List.take_succ_cons]
    simp [text]
  · rw [h.eof, hlines, kept_cons, if_pos hmore, List.length_cons, hlast,
      Nat.add_lt_add_iff_right, Nat.add_right_cancel_iff]

/-- The line that has been read is one too many. -/
theorem loopEnd_full (hline : ∀ c ∈ line, isNewline c = false) (hfull : ¬(count : ℤ) < maxLines) :
    LoopEnd (line ++ '\n' :: rest) maxLines count result ({ rest := rest }, count, result) := by
  have hlines : (line ++ '\n' :: rest).lines isNewline = line :: rest.lines isNewline :=
    List.lines_first hline rfl
  have hlast := @List.unterminated_first _ isNewline rest line '\n' rfl
  constructor
  · rw [hlines, kept_cons, if_neg hfull]
    rfl
  · rw [hlines, kept_cons, if_neg hfull]
    simp [text]
  · rw [hlines, kept_cons, if_neg hfull, List.length_cons, hlast]
    refine iff_of_true rfl ⟨Nat.succ_pos _, ?_⟩
    -- if this line is the last one, nothing is behind its newline
    intro h
    have hnil : rest.lines isNewline = [] := List.eq_nil_of_length_eq_zero (by omega)
    rw [List.lines_eq_nil_iff.mp hnil] at h
    obtain ⟨c, hc, -⟩ := h.2
    cases hc

/-- What is left is read as one line, or there is nothing. -/
theorem loopEnd_last (hturns : content.length < turns + 1)
    (hnone : ∀ c ∈ content, isNewline c = false) :
    LoopEnd content maxLines count result
      (readLoop maxLines (turns + 1) { rest := content } count result) := by
  unfold readLoop
  rw [getline_last hnone]
  by_cases hnil : content = []
  · subst hnil
    simp only [List.isEmpty_nil, Bool.not_true, Bool.false_and, Bool.false_eq_true, if_false]
    constructor <;> simp [kept, text]
  · have hlines := List.lines_last hnil hnone
    have hlast := List.unterminated_last hnil hnone
    have hempty : content.isEmpty = false := List.isEmpty_eq_false_iff.mpr hnil
    have hpos := List.length_pos_iff.mpr hnil
    by_cases hmore : (count : ℤ) < maxLines
    · simp only [hempty, hmore, Bool.not_false, decide_true, Bool.and_self, if_true]
      rw [readLoop_eof (by omega)]
      have hone : kept maxLines count [content] = 1 := by
        rw [kept_cons, if_pos hmore]
        simp [kept]
      constructor <;> rw [hlines, hone] <;> simp [text]
    · simp only [hempty, hmore, Bool.not_false, decide_false, Bool.and_false, Bool.false_eq_true,
        if_false]
      have hzero : kept maxLines count [content] = 0 := by rw [kept_cons, if_neg hmore]
      constructor <;> rw [hlines, hzero] <;> simp [text, hlast]

/-- **The loop over the lines.** -/
theorem loopEnd_readLoop (hturns : content.length < turns) (count : ℕ) (result : List Char) :
    LoopEnd content maxLines count result
      (readLoop maxLines turns { rest := content } count result) := by
  induction turns generalizing content count result with
  | zero => omega
  | succ turns ih =>
    rcases List.forall_or_first isNewline content with hnone | ⟨line, sep, rest, rfl, hsep, hline⟩
    · exact loopEnd_last hturns hnone
    · obtain rfl : sep = '\n' := of_decide_eq_true hsep
      rw [List.length_append, List.length_cons] at hturns
      unfold readLoop
      rw [getline_first hline]
      by_cases hmore : (count : ℤ) < maxLines
      · simp only [hmore, Bool.not_false, decide_true, Bool.and_self, if_true]
        exact LoopEnd.first hline hmore (ih (by omega) _ _)
      · simp only [hmore, Bool.not_false, decide_false, Bool.and_false, Bool.false_eq_true,
          if_false]
        exact loopEnd_full hline hmore

/-- What should be returned: so many lines, and a notice if there are more. -/
def expected (content : List Char) (maxLines : ℤ) : List Char :=
  let lines := content.lines isNewline
  text (lines.take maxLines.toNat) ++
    if maxLines.toNat < lines.length then notice maxLines else []

theorem notice_ne_nil (maxLines : ℤ) : notice maxLines ≠ [] := by
  unfold notice
  simp

/-- When a notice is left: the limit has been reached, and the end of the
    file not met. -/
def Noticed (content : List Char) (maxLines : ℤ) : Prop :=
  0 ≤ maxLines ∧ maxLines.toNat < (content.lines isNewline).length ∧
    ¬((content.lines isNewline).length = maxLines.toNat + 1 ∧ content.Unterminated isNewline)

theorem readLines_eq (content : List Char) (maxLines : ℤ) [Decidable (Noticed content maxLines)] :
    readLines content maxLines =
      text ((content.lines isNewline).take maxLines.toNat) ++
        if Noticed content maxLines then notice maxLines else [] := by
  have hloop := @loopEnd_readLoop content maxLines _ (Nat.lt_add_one content.length) 0 []
  have hresult : (readLoop maxLines (content.length + 1) { rest := content } 0 []).2.2 =
      text ((content.lines isNewline).take maxLines.toNat) := by
    rw [hloop.result, List.nil_append, kept, Nat.cast_zero, sub_zero, ← List.take_eq_take_min]
  have hstopped :
      (((readLoop maxLines (content.length + 1) { rest := content } 0 []).2.1 : ℤ) = maxLines ∧
        (readLoop maxLines (content.length + 1) { rest := content } 0 []).1.eof = false) ↔
      Noticed content maxLines := by
    rw [hloop.count, hloop.eof, Noticed]
    -- below the limit the two numbers of lines kept are the same
    by_cases hreached : kept maxLines 0 (content.lines isNewline) = maxLines.toNat
    · rw [hreached]
      refine and_congr_left fun hmore => ?_
      omega
    · unfold kept at hreached ⊢
      constructor
      · intro h
        omega
      · intro h
        omega
  unfold readLines
  simp only [hstopped, hresult]
  split
  · rfl
  · rw [List.append_nil]

/-- A notice or none, behind the same lines. -/
theorem append_notice_iff (A B : Prop) [Decidable A] [Decidable B] :
    (result ++ if A then notice maxLines else []) = (result ++ if B then notice maxLines else []) ↔
      (A ↔ B) := by
  have hne := notice_ne_nil maxLines
  rw [List.append_cancel_left_eq]
  by_cases hA : A <;> by_cases hB : B <;> simp [hA, hB, hne]

/-- **The lines of a file.** What is returned is what should be, if and only
    if the limit is not negative, unless the file is empty, and the file
    does not end with one line more than the limit that has no newline. -/
theorem readLines_iff (content : List Char) (maxLines : ℤ) :
    readLines content maxLines = expected content maxLines ↔
      (0 ≤ maxLines ∨ content = []) ∧
        ¬((content.lines isNewline).length = maxLines + 1 ∧ content.Unterminated isNewline) := by
  classical
  have hempty : content = [] ↔ (content.lines isNewline).length = 0 := by
    rw [List.length_eq_zero_iff, List.lines_eq_nil_iff]
  have hsome : content.Unterminated isNewline → (content.lines isNewline).length ≠ 0 := by
    intro hlast hzero
    rw [hempty.mpr hzero] at hlast
    obtain ⟨c, hc, -⟩ := hlast
    cases hc
  rw [readLines_eq, expected, append_notice_iff, Noticed, hempty]
  clear hempty
  generalize (content.lines isNewline).length = n at hsome ⊢
  by_cases hnonneg : 0 ≤ maxLines
  · obtain ⟨limit, rfl⟩ := Int.eq_ofNat_of_zero_le hnonneg
    simp only [hnonneg, Int.toNat_natCast, true_and, true_or]
    norm_cast
    grind
  · have hlimit : maxLines.toNat = 0 := by omega
    simp only [hnonneg, hlimit, false_and, false_or, false_iff]
    grind

/-- Two lines, the second without a newline, and a limit of one. -/
theorem last_line_unnoticed :
    ¬ ∀ (content : List Char) (maxLines : ℤ),
      readLines content maxLines = expected content maxLines := by
  intro hall
  exact absurd (hall "a\nb".toList 1) (by decide)

end FileRead

end Forge
