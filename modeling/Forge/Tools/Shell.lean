import Forge.Framework.Words
import Forge.Utils.Json

/-! # Shell Tool

  The handler of `shell` (`tools/builtin/shell.h`): a command is checked
  against the allowlist, its characters are checked, and its words become
  the `argv` of `execvp`. A command is a character for each byte. What the
  operating system does is a parameter; a value of the wrong type in the
  arguments throws (`none`), every other exception is an error with its
  text.

  - `argv`: the checks and the words, up to the call of `execvp`;
  - `tokenize_eq`: the extraction loop finds the words;
  - `permits_iff`: the allowlist check is about the first word;
  - `argv_eq_ok_iff`: the commands that are executed, and as what.
-/

namespace Forge

namespace Shell

/-! ### The Checks -/

/-- `isspace` in the C locale. -/
def isSpace (c : Char) : Bool :=
  c = ' ' || c = '\t' || c = '\n' || c = '\x0b' || c = '\x0c' || c = '\r'

/-- What may follow a word of the allowlist. -/
def isBlank (c : Char) : Bool := c = ' ' || c = '\t'

/-- The characters that are rejected. -/
def metacharacters : List Char := ";&|`$\n\r><()\x7b\x7d!\\'\"".toList

/-- `allowed_commands` when nothing else is given. -/
def defaultCommands : List (List Char) :=
  ["ls", "cat", "head", "tail", "wc", "grep", "find", "date", "echo", "pwd", "whoami"].map
    String.toList

/-- The command begins with the word, and then ends or goes on with a blank. -/
def permits (command word : List Char) : Bool :=
  command.take word.length = word &&
    (command.length = word.length ||
      command[word.length]? = some ' ' || command[word.length]? = some '\t')

def checkAllowed (allowed : List (List Char)) (command : List Char) : Except String Unit :=
  if allowed = [] || allowed.any (permits command) then .ok ()
  else .error ("Command not allowed. Permitted: " ++
    String.intercalate ", " (allowed.map String.ofList))

def checkCharacters (command : List Char) : Except String Unit :=
  match command.find? (· ∈ metacharacters) with
  | some c =>
      .error ("Shell metacharacter '" ++ String.singleton c ++ "' not allowed in commands")
  | none => .ok ()

/-! ### The Words -/

/-- `iss >> token`: the token, and what is left. -/
def extract (s : List Char) : Option (List Char × List Char) :=
  match s.dropWhile isSpace with
  | [] => none
  | c :: s => some ((c :: s).takeWhile fun c => !isSpace c, (c :: s).dropWhile fun c => !isSpace c)

/-- `while (iss >> token)`. Every token has a character at least. -/
def tokenize : ℕ → List Char → List (List Char)
  | 0, _ => []
  | turns + 1, s =>
      match extract s with
      | some (token, rest) => token :: tokenize turns rest
      | none => []

/-- What a `char*` points to. -/
def cString (s : List Char) : List Char := s.takeWhile (· ≠ '\x00')

/-- The `argv` of `execvp`, in the child. -/
def argv (allowed : List (List Char)) (command : List Char) : Except String (List (List Char)) :=
  if command = [] then .error "Missing 'command' parameter"
  else do
    checkAllowed allowed command
    checkCharacters command
    let tokens := tokenize (command.length + 1) command
    if tokens = [] then .error "Empty command after parsing"
    else .ok (tokens.map cString)

/-! ### The Handler -/

/-- Whether `pipe` and `fork` succeed, and what is read from the pipe until
    it is closed. -/
structure Os where
  pipe : Bool
  fork : Bool
  output : List (List Char) → List Char

def maxOutput : ℕ := 50000

def truncateOutput (output : List Char) : List Char :=
  if output.length > maxOutput then
    output.take maxOutput ++ "\n... (output truncated at 50KB)\n".toList
  else output

/-- The child is started, and read from. -/
def spawn (os : Os) (argv : List (List Char)) : Except String (List Char) :=
  if !os.pipe then .error "Failed to create pipe"
  else if !os.fork then .error "Failed to fork"
  else .ok (truncateOutput (os.output argv))

/-- The handler, with its arguments parsed. -/
def handler (os : Os) (allowed : List (List Char)) (args : Json) :
    Option (Except String (List Char)) :=
  (args.value Json.getString "command" "").map fun command =>
    (argv allowed command.toList).bind (spawn os)

variable {allowed : List (List Char)} {command word rest s : List Char} {args : List (List Char)}

/-! ### What the Checks Let Through -/

theorem isSpace_of_isBlank {c : Char} (h : isBlank c = true) : isSpace c = true := by
  simp only [isBlank, Bool.or_eq_true, decide_eq_true_eq] at h
  rcases h with rfl | rfl
  · rfl
  · rfl

/-- The allowlist check is about what the command begins with. -/
theorem permits_iff : permits command word = true ↔
    ∃ rest, command = word ++ rest ∧ ∀ c ∈ rest.head?, isBlank c = true := by
  simp only [permits, Bool.and_eq_true, Bool.or_eq_true, decide_eq_true_eq]
  constructor
  · intro h
    obtain ⟨htake, hnext⟩ := h
    have hsplit : command = word ++ command.drop word.length := by
      conv_lhs => rw [← List.take_append_drop word.length command, htake]
    refine ⟨command.drop word.length, hsplit, ?_⟩
    intro c hc
    rw [List.head?_drop, Option.mem_def] at hc
    rcases hnext with (hend | hspace) | htab
    · rw [List.getElem?_eq_none (by omega)] at hc
      cases hc
    · rw [hspace] at hc
      rw [← Option.some.inj hc]
      rfl
    · rw [htab] at hc
      rw [← Option.some.inj hc]
      rfl
  · intro h
    obtain ⟨rest, rfl, hnext⟩ := h
    refine ⟨List.take_left, ?_⟩
    rw [List.getElem?_append_right (Nat.le_refl _), Nat.sub_self]
    cases rest with
    | nil => simp
    | cons c rest =>
      have hc : isBlank c = true := hnext c rfl
      simp only [isBlank, Bool.or_eq_true, decide_eq_true_eq] at hc
      rcases hc with rfl | rfl
      · simp
      · simp

theorem checkAllowed_eq_ok_iff (hne : allowed ≠ []) :
    checkAllowed allowed command = .ok () ↔ ∃ word ∈ allowed, permits command word = true := by
  unfold checkAllowed
  simp [hne]

theorem checkCharacters_eq_ok_iff :
    checkCharacters command = .ok () ↔ ∀ c ∈ command, c ∉ metacharacters := by
  unfold checkCharacters
  cases hfind : command.find? (· ∈ metacharacters) with
  | none => simpa using hfind
  | some c =>
    have hc := List.find?_some hfind
    have hmem := List.mem_of_find?_eq_some hfind
    simp only [reduceCtorEq, false_iff]
    intro hall
    exact hall c hmem (by simpa using hc)

/-- **The extraction loop** finds the words. -/
theorem tokenize_eq {turns : ℕ} (hturns : s.length < turns) :
    tokenize turns s = s.words isSpace := by
  induction turns generalizing s with
  | zero => omega
  | succ turns ih =>
    have hwords := List.words_dropWhile isSpace s
    have hshort := (List.dropWhile_sublist isSpace (l := s)).length_le
    unfold tokenize extract
    cases hs : s.dropWhile isSpace with
    | nil =>
      rw [hs, List.words_nil] at hwords
      exact hwords
    | cons c rest =>
      rw [hs] at hwords hshort
      have hc : isSpace c = false := by
        have hhead := List.head_dropWhile_not isSpace (by rw [hs]; exact List.cons_ne_nil c rest)
        simpa [hs] using hhead
      have hdrop : (c :: rest).dropWhile (fun c => !isSpace c) =
          rest.dropWhile fun c => !isSpace c :=
        List.dropWhile_cons_of_pos (by simp [hc])
      have hrest := (List.dropWhile_sublist (fun c => !isSpace c) (l := rest)).length_le
      rw [← hwords, List.words_takeWhile hc]
      rw [List.length_cons] at hshort
      show _ :: tokenize turns _ = _
      rw [ih (by rw [hdrop]; omega)]

/-! ### The Commands That Are Executed -/

/-- A word that can stand in the allowlist. -/
structure Word (w : List Char) : Prop where
  nonempty : w ≠ []
  spaces : ∀ c ∈ w, isSpace c = false
  metacharacters : ∀ c ∈ w, c ∉ metacharacters

/-- What follows a word of the allowlist does not belong to it. -/
theorem words_command (hword : Word word) (hnext : ∀ c ∈ rest.head?, isBlank c = true) :
    (word ++ rest).words isSpace = word :: rest.words isSpace :=
  List.words_first hword.nonempty hword.spaces fun c hc => isSpace_of_isBlank (hnext c hc)

theorem check_then_iff {x : Except String Unit} {y : Except String (List (List Char))} :
    (x >>= fun _ => y) = .ok args ↔ x = .ok () ∧ y = .ok args := by
  cases x with
  | error e => simp [bind, Except.bind]
  | ok u => simp [bind, Except.bind]

/-- The arguments of a command that passes the checks. -/
theorem argv_of_permitted (hne : allowed ≠ []) (hword : Word word) (hmem : word ∈ allowed)
    (hnext : ∀ c ∈ rest.head?, isBlank c = true) :
    argv allowed (word ++ rest) = .ok args ↔
      (∀ c ∈ rest, c ∉ metacharacters) ∧ args = (word :: rest.words isSpace).map cString := by
  have hallowed : checkAllowed allowed (word ++ rest) = .ok () :=
    (checkAllowed_eq_ok_iff hne).mpr ⟨word, hmem, permits_iff.mpr ⟨rest, rfl, hnext⟩⟩
  have hclean : (∀ c ∈ word ++ rest, c ∉ metacharacters) ↔ ∀ c ∈ rest, c ∉ metacharacters := by
    rw [List.forall_mem_append]
    exact and_iff_right hword.metacharacters
  have htokens := tokenize_eq (Nat.lt_add_one (word ++ rest).length)
  rw [words_command hword hnext] at htokens
  unfold argv
  rw [if_neg (List.append_ne_nil_of_left_ne_nil hword.nonempty rest), check_then_iff,
    check_then_iff, checkCharacters_eq_ok_iff, hclean, htokens, if_neg (List.cons_ne_nil _ _)]
  simp only [hallowed, true_and, Except.ok.injEq]
  rw [eq_comm]

/-- **What is executed.** A command reaches `execvp` if and only if it is a
    word of the allowlist, and what follows begins with a blank, if it is
    not empty, and has no metacharacter. The arguments are the words, each
    up to its first `'\0'`; they have no metacharacters. -/
theorem argv_eq_ok_iff (hne : allowed ≠ []) (hwords : ∀ w ∈ allowed, Word w) :
    (argv allowed command = .ok args ↔
      ∃ word ∈ allowed, ∃ rest, command = word ++ rest ∧ (∀ c ∈ rest.head?, isBlank c = true) ∧
        (∀ c ∈ rest, c ∉ metacharacters) ∧
        args = (word :: rest.words isSpace).map cString) ∧
    (argv allowed command = .ok args → ∀ arg ∈ args, ∀ c ∈ arg, c ∉ metacharacters) := by
  have hexact : argv allowed command = .ok args ↔
      ∃ word ∈ allowed, ∃ rest, command = word ++ rest ∧ (∀ c ∈ rest.head?, isBlank c = true) ∧
        (∀ c ∈ rest, c ∉ metacharacters) ∧
        args = (word :: rest.words isSpace).map cString := by
    constructor
    · intro h
      have hallowed : checkAllowed allowed command = .ok () := by
        unfold argv at h
        split at h
        · cases h
        · exact (check_then_iff.mp h).1
      obtain ⟨word, hmem, hpermits⟩ := (checkAllowed_eq_ok_iff hne).mp hallowed
      obtain ⟨rest, rfl, hnext⟩ := permits_iff.mp hpermits
      exact ⟨word, hmem, rest, rfl, hnext,
        (argv_of_permitted hne (hwords word hmem) hmem hnext).mp h⟩
    · intro h
      obtain ⟨word, hmem, rest, rfl, hnext, hargs⟩ := h
      exact (argv_of_permitted hne (hwords word hmem) hmem hnext).mpr hargs
  refine ⟨hexact, ?_⟩
  intro h arg harg c hc
  obtain ⟨word, hmem, rest, -, -, hclean, rfl⟩ := hexact.mp h
  obtain ⟨token, htoken, rfl⟩ := List.mem_map.mp harg
  have hctoken : c ∈ token := (List.takeWhile_sublist _).subset hc
  rcases List.mem_cons.mp htoken with rfl | htoken
  · exact (hwords token hmem).metacharacters c hctoken
  · exact hclean c ((List.mem_words htoken).2 c hctoken).2

theorem defaultCommands_words : ∀ w ∈ defaultCommands, Word w := by
  have hall : ∀ w ∈ defaultCommands,
      w ≠ [] ∧ w.all (fun c => !isSpace c && decide (c ∉ metacharacters)) = true := by
    decide +kernel
  intro w hw
  obtain ⟨hne, hchars⟩ := hall w hw
  have hboth : ∀ c ∈ w, isSpace c = false ∧ c ∉ metacharacters := by
    intro c hc
    obtain ⟨hspace, hmeta⟩ := Bool.and_eq_true_iff.mp (List.all_eq_true.mp hchars c hc)
    exact ⟨by simpa using hspace, of_decide_eq_true hmeta⟩
  exact ⟨hne, fun c hc => (hboth c hc).1, fun c hc => (hboth c hc).2⟩

theorem ls_executed :
    argv defaultCommands "ls\t-l  /tmp".toList = .ok ["ls".toList, "-l".toList, "/tmp".toList] := by
  have hblank : ∀ c ∈ "\t-l  /tmp".toList.head?, isBlank c = true := by
    intro c hc
    obtain rfl : '\t' = c := Option.some.inj hc
    rfl
  have hall : "\t-l  /tmp".toList.all (fun c => decide (c ∉ metacharacters)) = true := by decide
  refine (argv_eq_ok_iff (by decide) defaultCommands_words).1.mpr ?_
  exact ⟨"ls".toList, by decide, "\t-l  /tmp".toList, by decide, hblank,
    fun c hc => of_decide_eq_true (List.all_eq_true.mp hall c hc), by decide⟩

/-- A word with `'\0'` in it is cut short. -/
theorem zero_cuts_word :
    ¬ ∀ (allowed : List (List Char)) (command : List Char) (args : List (List Char)),
      allowed ≠ [] → (∀ w ∈ allowed, Word w) → argv allowed command = .ok args →
      ∃ word ∈ allowed, ∃ rest, command = word ++ rest ∧ args = word :: rest.words isSpace := by
  intro hall
  have hexec : argv defaultCommands "cat a\x00b".toList = .ok ["cat".toList, "a".toList] := by
    decide
  obtain ⟨word, hmem, rest, hcommand, hargs⟩ :=
    hall _ _ _ (by decide) defaultCommands_words hexec
  have hword : word = "cat".toList := (List.cons_eq_cons.mp hargs).1.symm
  subst hword
  have hsplit : "cat a\x00b".toList = "cat".toList ++ " a\x00b".toList := by decide
  obtain rfl := List.append_cancel_left (hsplit.symm.trans hcommand)
  exact absurd hargs (by decide)

end Shell

end Forge
