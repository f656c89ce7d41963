import Forge.Framework.Words

/-! # HTTP Client

  `AsyncHttpClient` (`core/async_http_client.h`): a URL is split into origin
  and path, and the host is taken out of the origin and given to the check
  against private addresses. A string is a character for each byte, and an
  exception is an error with its text.

  - `parseUrl`, `extractHost`: the two splitters;
  - `checkedPiece`: which piece of the URL the host that is judged is;
  - `Url`: a URL by its components, none of which has a character that ends
    it;
  - `Url.seen`: what is taken for a part of the authority, which goes on to
    the first `/` only;
  - `checkedHost_iff`: when the host that is judged is the host of the URL,
    and is taken from its place.
-/

namespace Forge

namespace AsyncHttpClient

/-! ### The Two Splitters -/

/-- `find` of a string: the first position it stands at. -/
def indexOf (pattern : List Char) : List Char → Option ℕ
  | [] => if pattern = [] then some 0 else none
  | c :: s => if pattern <+: c :: s then some 0 else (indexOf pattern s).map (· + 1)

/-- `find` of a character, from a position on. -/
def findFrom (c : Char) (s : List Char) (pos : ℕ) : Option ℕ :=
  ((s.drop pos).idxOf? c).map (pos + ·)

def schemeMark : List Char := "://".toList

structure UrlParts where
  schemeHostPort : List Char
  path : List Char
  deriving DecidableEq

/-- `parse_url`. -/
def parseUrl (url : List Char) : Except String UrlParts :=
  match indexOf schemeMark url with
  | none => .error ("URL must include scheme: " ++ String.ofList url)
  | some schemeEnd =>
      match findFrom '/' url (schemeEnd + 3) with
      | none => .ok ⟨url, ['/']⟩
      | some pathStart => .ok ⟨url.take pathStart, url.drop pathStart⟩

/-- Strip userinfo (anything before `@`). -/
def stripUserinfo (rest : List Char) : List Char :=
  match rest.idxOf? '@' with
  | some pos => rest.drop (pos + 1)
  | none => rest

def beforeColon (rest : List Char) : List Char :=
  match rest.idxOf? ':' with
  | some colon => rest.take colon
  | none => rest

/-- Handle IPv6 bracket notation, else cut at the `:`. -/
def hostPart (rest : List Char) : List Char :=
  if rest.head? = some '[' then
    match rest.idxOf? ']' with
    | some bracketEnd => (rest.drop 1).take (bracketEnd - 1)
    | none => beforeColon rest
  else beforeColon rest

/-- `extract_host`. -/
def extractHost (schemeHostPort : List Char) : List Char :=
  hostPart (stripUserinfo
    (match indexOf schemeMark schemeHostPort with
    | some schemeEnd => schemeHostPort.drop (schemeEnd + 3)
    | none => schemeHostPort))

/-- The host that is given to `check_ssrf`. -/
def checkedHost (url : List Char) : Except String (List Char) :=
  (parseUrl url).map fun parts => extractHost parts.schemeHostPort

/-! ### Where the Host Is Taken From -/

/-- A piece of a string: where it begins, and how long it is. -/
structure Piece where
  start : ℕ
  length : ℕ
  deriving DecidableEq

/-- `substr(start, length)`. -/
def Piece.text (p : Piece) (s : List Char) : List Char := (s.drop p.start).take p.length

/-- What `hostPart` takes. -/
def hostPiece (rest : List Char) : Piece :=
  if rest.head? = some '[' then
    match rest.idxOf? ']' with
    | some bracketEnd => ⟨1, bracketEnd - 1⟩
    | none => ⟨0, (beforeColon rest).length⟩
  else ⟨0, (beforeColon rest).length⟩

/-- What `stripUserinfo` leaves out in front. -/
def userinfoLength (rest : List Char) : ℕ :=
  match rest.idxOf? '@' with
  | some pos => pos + 1
  | none => 0

/-- What is left out in front of that. -/
def schemeLength (schemeHostPort : List Char) : ℕ :=
  match indexOf schemeMark schemeHostPort with
  | some schemeEnd => schemeEnd + 3
  | none => 0

/-- The host in an authority that begins at `start`. -/
def authorityPiece (start : ℕ) (rest : List Char) : Piece :=
  let piece := hostPiece (rest.drop (userinfoLength rest))
  ⟨start + userinfoLength rest + piece.start, piece.length⟩

/-- What `extractHost` takes. -/
def extractPiece (schemeHostPort : List Char) : Piece :=
  authorityPiece (schemeLength schemeHostPort)
    (schemeHostPort.drop (schemeLength schemeHostPort))

/-- The piece of the URL that is given to `check_ssrf`. The origin is the
    front of the URL, so positions in it are positions in the URL. -/
def checkedPiece (url : List Char) : Except String Piece :=
  (parseUrl url).map fun parts => extractPiece parts.schemeHostPort

theorem prefix_beforeColon (rest : List Char) : beforeColon rest <+: rest := by
  unfold beforeColon
  split
  · exact List.take_prefix _ _
  · exact List.prefix_rfl

theorem hostPart_eq_text (rest : List Char) : hostPart rest = (hostPiece rest).text rest := by
  have hcolon : beforeColon rest = Piece.text ⟨0, (beforeColon rest).length⟩ rest :=
    (List.prefix_iff_eq_take.mp (prefix_beforeColon rest))
  unfold hostPart hostPiece
  split
  · split
    · rfl
    · exact hcolon
  · exact hcolon

theorem stripUserinfo_eq_drop (rest : List Char) :
    stripUserinfo rest = rest.drop (userinfoLength rest) := by
  unfold stripUserinfo userinfoLength
  split <;> rfl

theorem extractHost_eq_text (schemeHostPort : List Char) :
    extractHost schemeHostPort = (extractPiece schemeHostPort).text schemeHostPort := by
  have hrest : (match indexOf schemeMark schemeHostPort with
      | some schemeEnd => schemeHostPort.drop (schemeEnd + 3)
      | none => schemeHostPort) = schemeHostPort.drop (schemeLength schemeHostPort) := by
    unfold schemeLength
    split <;> rfl
  unfold extractHost extractPiece authorityPiece Piece.text
  rw [hrest, stripUserinfo_eq_drop, hostPart_eq_text, Piece.text]
  simp only [List.drop_drop]

theorem hostPiece_le (rest : List Char) :
    (hostPiece rest).start + (hostPiece rest).length ≤ rest.length := by
  have hcolon := (prefix_beforeColon rest).length_le
  unfold hostPiece
  split
  · next hopen =>
    obtain ⟨rest, rfl⟩ := List.head?_eq_some_iff.mp hopen
    split
    · next bracketEnd hend =>
      obtain ⟨hlt, -⟩ := List.idxOf?_eq_some_iff.mp hend
      rw [List.length_cons] at hlt ⊢
      show 1 + (bracketEnd - 1) ≤ _
      omega
    · simpa using hcolon
  · simpa using hcolon

theorem Piece.shifted_iff {p : Piece} {n start length : ℕ} :
    (⟨n + p.start, p.length⟩ : Piece) = ⟨n + start, length⟩ ↔ p = ⟨start, length⟩ := by
  cases p
  simp

/-- A piece of the front of a string is a piece of the string. -/
theorem Piece.text_of_prefix {p : Piece} {s s' : List Char} (h : s <+: s')
    (hp : p.length = 0 ∨ p.start + p.length ≤ s.length) : p.text s = p.text s' := by
  obtain ⟨t, rfl⟩ := h
  unfold Piece.text
  rcases hp with hzero | hle
  · rw [hzero, List.take_zero, List.take_zero]
  · rw [List.drop_append_of_le_length (by omega),
      List.take_append_of_le_length (by rw [List.length_drop]; omega)]

/-- The host that is judged is the text of its piece. -/
theorem checkedHost_eq_text (url : List Char) :
    checkedHost url = (checkedPiece url).map (·.text url) := by
  -- the origin is a front of the URL, so that its positions are those of the URL
  have hfront : ∀ s, s <+: url → extractHost s = (extractPiece s).text url := by
    intro s hs
    rw [extractHost_eq_text]
    apply Piece.text_of_prefix hs
    have hle := hostPiece_le ((s.drop (schemeLength s)).drop
      (userinfoLength (s.drop (schemeLength s))))
    rw [List.length_drop, List.length_drop] at hle
    simp only [extractPiece, authorityPiece]
    omega
  unfold checkedHost checkedPiece parseUrl
  cases indexOf schemeMark url with
  | none => rfl
  | some schemeEnd =>
    simp only
    cases findFrom '/' url (schemeEnd + 3) with
    | none => exact congrArg Except.ok (hfront url List.prefix_rfl)
    | some pathStart => exact congrArg Except.ok (hfront _ (List.take_prefix pathStart url))

/-! ### URLs -/

/-- A name, an IPv4 literal, or an IPv6 literal in brackets. -/
inductive Host where
  | name (s : List Char)
  | ipv6 (s : List Char)
  deriving DecidableEq

/-- The host as it is written in the URL. -/
def Host.text : Host → List Char
  | .name s => s
  | .ipv6 s => '[' :: s ++ [']']

/-- The host itself: an IPv6 literal without its brackets. -/
def Host.value : Host → List Char
  | .name s | .ipv6 s => s

/-- Where it begins in the text. -/
def Host.offset : Host → ℕ
  | .name _ => 0
  | .ipv6 _ => 1

/-- Without any of the characters that end the component. -/
def Without (cs : String) (s : List Char) : Prop := ∀ c ∈ s, c ∉ cs.toList

instance (cs : String) (s : List Char) : Decidable (Without cs s) :=
  List.decidableBAll (· ∉ cs.toList) s

def Host.Valid : Host → Prop
  | .name s => Without "/?#@:[]" s
  | .ipv6 s => Without "/?#@[]" s

instance (host : Host) : Decidable host.Valid :=
  match host with
  | .name s => inferInstanceAs (Decidable (Without "/?#@:[]" s))
  | .ipv6 s => inferInstanceAs (Decidable (Without "/?#@[]" s))

/-- `scheme://[userinfo@]host[:port][/path][?query][#fragment]`. An `@` ends
    the userinfo, so there is none in it. -/
structure Url where
  scheme : List Char
  userinfo : Option (List Char)
  host : Host
  port : Option (List Char)
  /-- With its `/`, or empty. -/
  path : List Char
  query : Option (List Char)
  fragment : Option (List Char)
  scheme_valid : Without ":/?#" scheme
  userinfo_valid : ∀ s ∈ userinfo, Without "/?#@[]" s
  host_valid : host.Valid
  port_valid : ∀ s ∈ port, Without "/?#@:[]" s
  path_valid : (∀ c ∈ path.head?, c = '/') ∧ Without "?#" path
  query_valid : ∀ s ∈ query, Without "#" s

/-- A component behind the character that introduces it. -/
def introduced (c : Char) : Option (List Char) → List Char
  | some s => c :: s
  | none => []

def Url.hostPort (u : Url) : List Char := u.host.text ++ introduced ':' u.port

def Url.authority (u : Url) : List Char :=
  match u.userinfo with
  | some s => s ++ '@' :: u.hostPort
  | none => u.hostPort

/-- What follows the authority. -/
def Url.suffix (u : Url) : List Char :=
  u.path ++ introduced '?' u.query ++ introduced '#' u.fragment

def Url.string (u : Url) : List Char := u.scheme ++ schemeMark ++ (u.authority ++ u.suffix)

/-- The piece of the URL that is its host. -/
def Url.hostPiece (u : Url) : Piece where
  start := u.scheme.length + 3 +
    (match u.userinfo with
    | some s => s.length + 1
    | none => 0) + u.host.offset
  length := u.host.value.length

/-! ### What Is Taken for the Authority -/

/-- What follows the authority, up to the first `/`. -/
def Url.seen (u : Url) : List Char := u.suffix.takeWhile (· != '/')

variable {u : Url} {s s' rest v : List Char} {c : Char}

theorem Without.not_mem {cs : String} (h : Without cs s) (hc : c ∈ cs.toList) : c ∉ s :=
  fun hmem => h c hmem hc

theorem Without.mono {cs cs' : String} (h : Without cs s) (hcs : cs'.toList ⊆ cs.toList) :
    Without cs' s :=
  fun c hmem hc => h c hmem (hcs hc)

theorem Without.append {cs : String} (h : Without cs s) (h' : Without cs s') :
    Without cs (s ++ s') := by
  intro c hmem
  rcases List.mem_append.mp hmem with hmem | hmem
  · exact h c hmem
  · exact h' c hmem

/-- The first `://` ends a scheme without `:`. -/
theorem indexOf_schemeMark (h : ':' ∉ s) :
    indexOf schemeMark (s ++ schemeMark ++ rest) = some s.length := by
  induction s with
  | nil => rfl
  | cons c s ih =>
    rw [List.mem_cons, not_or] at h
    -- the mark begins with a `:`
    have hprefix : ¬schemeMark <+: c :: (s ++ schemeMark ++ rest) := by
      intro hpre
      exact h.1 (List.cons_prefix_cons.mp hpre).1
    show (if schemeMark <+: c :: (s ++ schemeMark ++ rest) then some 0
      else (indexOf schemeMark (s ++ schemeMark ++ rest)).map (· + 1)) = _
    rw [if_neg hprefix, ih h.2]
    rfl

/-- The position behind the scheme is where the rest begins. -/
theorem drop_schemeMark : (s ++ schemeMark ++ rest).drop (s.length + 3) = rest :=
  List.drop_left' (by simp [schemeMark])

/-- What is cut off is everything from the first `/` on. -/
def pathOf (rest : List Char) : List Char :=
  match rest.dropWhile (· != '/') with
  | [] => ['/']
  | path => path

theorem parseUrl_eq (h : ':' ∉ s) : parseUrl (s ++ schemeMark ++ rest) =
    .ok ⟨s ++ schemeMark ++ rest.takeWhile (· != '/'), pathOf rest⟩ := by
  unfold parseUrl findFrom pathOf
  rw [indexOf_schemeMark h]
  simp only [drop_schemeMark]
  rcases List.forall_or_first (· == '/') rest with hnone | ⟨w, sep, path, rfl, hsep, hw⟩
  · -- all of the rest belongs to the origin
    have hnot : '/' ∉ rest := by
      intro hmem
      simpa using hnone '/' hmem
    have htake : rest.takeWhile (· != '/') = rest := List.takeWhile_none hnone
    have hdrop : rest.dropWhile (· != '/') = [] := List.dropWhile_none hnone
    rw [List.idxOf?_eq_none_iff.mpr hnot, htake, hdrop]
    rfl
  · -- the origin ends in front of the first `/`, behind `w`
    obtain rfl : sep = '/' := by simpa using hsep
    have hnot : '/' ∉ w := by
      intro hmem
      simpa using hw '/' hmem
    have htake : (w ++ '/' :: path).takeWhile (· != '/') = w := List.takeWhile_first hw hsep
    have hdrop : (w ++ '/' :: path).dropWhile (· != '/') = '/' :: path :=
      List.dropWhile_first hw hsep
    have hlen : s.length + 3 + w.length = (s ++ schemeMark ++ w).length := by
      simp [schemeMark]
      omega
    rw [List.idxOf?_first hnot, htake, hdrop, Option.map_some]
    simp only [hlen]
    rw [← List.append_assoc (s ++ schemeMark) w, List.take_left, List.drop_left]

theorem extractPiece_eq (h : ':' ∉ s) :
    extractPiece (s ++ schemeMark ++ rest) = authorityPiece (s.length + 3) rest := by
  have hlength : schemeLength (s ++ schemeMark ++ rest) = s.length + 3 := by
    unfold schemeLength
    rw [indexOf_schemeMark h]
  unfold extractPiece
  rw [hlength, drop_schemeMark]

/-! ### The Host in an Authority -/

theorem userinfoLength_first (h : '@' ∉ s) : userinfoLength (s ++ '@' :: rest) = s.length + 1 := by
  unfold userinfoLength
  rw [List.idxOf?_first h]

theorem userinfoLength_none (h : '@' ∉ s) : userinfoLength s = 0 := by
  unfold userinfoLength
  rw [List.idxOf?_eq_none_iff.mpr h]

/-- What `hostPiece` takes of a bracketed literal, -/
theorem hostPiece_ipv6 (h : ']' ∉ s) : hostPiece ('[' :: (s ++ ']' :: rest)) = ⟨1, s.length⟩ := by
  have hidx : ('[' :: (s ++ ']' :: rest)).idxOf? ']' = some (s.length + 1) :=
    @List.idxOf?_first _ rest ('[' :: s) ']' _ _ (by simp [h])
  unfold hostPiece
  rw [if_pos List.head?_cons, hidx]
  rfl

/-- and of anything else: what is in front of the first `:`. -/
theorem hostPiece_plain (h : rest.head? ≠ some '[') :
    hostPiece rest = ⟨0, (beforeColon rest).length⟩ := if_neg h

theorem beforeColon_first (h : ':' ∉ s) : beforeColon (s ++ ':' :: rest) = s := by
  unfold beforeColon
  rw [List.idxOf?_first h]
  exact List.take_left

theorem beforeColon_none (h : ':' ∉ s) : beforeColon s = s := by
  unfold beforeColon
  rw [List.idxOf?_eq_none_iff.mpr h]

/-- What is in front of the first `:` goes beyond a part without one. -/
theorem length_beforeColon_lt (hs : ':' ∉ s) (hne : rest ≠ []) (hrest : rest.head? ≠ some ':') :
    s.length < (beforeColon (s ++ rest)).length := by
  by_cases hmem : ':' ∈ rest
  · obtain ⟨w, tail, rfl, hw⟩ := List.eq_append_cons_of_mem hmem
    have hboth : ':' ∉ s ++ w := by simp [hs, hw]
    rw [← List.append_assoc, beforeColon_first hboth, List.length_append]
    cases w with
    | nil => exact absurd rfl hrest
    | cons c w => simp
  · have hboth : ':' ∉ s ++ rest := by simp [hs, hmem]
    rw [beforeColon_none hboth, List.length_append]
    have hpos := List.length_pos_iff.mpr hne
    omega

/-! ### The Host of a URL -/

theorem introduced_without {o : Option (List Char)} {cs : String} (hc : c ∉ cs.toList)
    (h : ∀ s ∈ o, Without cs s) : Without cs (introduced c o) := by
  cases o with
  | none => simp [introduced, Without]
  | some s =>
    intro d hd
    rcases List.mem_cons.mp hd with rfl | hd
    · exact hc
    · exact h s rfl d hd

theorem Host.Valid.text_without {host : Host} (h : host.Valid) : Without "/?#@" host.text := by
  cases host with
  | name s => exact Without.mono h (by decide)
  | ipv6 s =>
    intro c hc
    simp only [Host.text, List.mem_cons, List.mem_append, List.not_mem_nil, or_false] at hc
    rcases hc with (rfl | hc) | rfl
    · decide
    · exact Without.mono h (by decide) c hc
    · decide

/-- Nothing in host and port ends the authority or its userinfo. -/
theorem Url.hostPort_without (u : Url) : Without "/?#@" u.hostPort := by
  have hport : ∀ s ∈ u.port, Without "/?#@" s :=
    fun s hs => Without.mono (u.port_valid s hs) (by decide)
  exact u.host_valid.text_without.append (introduced_without (by decide) hport)

theorem Url.authority_without (u : Url) : Without "/?#" u.authority := by
  have hhost : Without "/?#" u.hostPort := u.hostPort_without.mono (by decide)
  unfold Url.authority
  cases huser : u.userinfo with
  | none => exact hhost
  | some s =>
    have hs : Without "/?#" s := Without.mono (u.userinfo_valid s huser) (by decide)
    intro c hc
    rcases List.mem_append.mp hc with hc | hc
    · exact hs c hc
    · rcases List.mem_cons.mp hc with rfl | hc
      · decide
      · exact hhost c hc

/-- The authority that the splitters work on. -/
theorem checkedPiece_string (u : Url) : checkedPiece u.string =
    .ok (authorityPiece (u.scheme.length + 3) (u.authority ++ u.seen)) := by
  have hscheme : ':' ∉ u.scheme := u.scheme_valid.not_mem (by decide)
  have hslash : ∀ c ∈ u.authority, (c != '/') = true := by
    intro c hc
    have hne : c ≠ '/' := by
      rintro rfl
      exact u.authority_without _ hc (by decide)
    simpa using hne
  have htake : (u.authority ++ u.suffix).takeWhile (· != '/') = u.authority ++ u.seen :=
    List.takeWhile_append_of_pos hslash
  unfold checkedPiece Url.string
  rw [parseUrl_eq hscheme, htake]
  exact congrArg Except.ok (extractPiece_eq hscheme)

/-- With a userinfo its `@` is the first one. -/
theorem userinfoLength_some {user : List Char} (huser : u.userinfo = some user) :
    userinfoLength (u.authority ++ u.seen) = user.length + 1 ∧
      (u.authority ++ u.seen).drop (user.length + 1) = u.hostPort ++ u.seen := by
  have hat : '@' ∉ user := (u.userinfo_valid user huser).not_mem (by decide)
  simp only [Url.authority, huser, List.append_assoc, List.cons_append]
  refine ⟨userinfoLength_first hat, ?_⟩
  rw [← List.drop_drop, List.drop_left]
  rfl

/-- There is no `@`. -/
theorem userinfoLength_plain (huser : u.userinfo = none) (hseen : '@' ∉ u.seen) :
    userinfoLength (u.authority ++ u.seen) = 0 ∧
      (u.authority ++ u.seen).drop 0 = u.hostPort ++ u.seen := by
  have hat : '@' ∉ u.hostPort ++ u.seen := by
    rw [List.mem_append, not_or]
    exact ⟨u.hostPort_without.not_mem (by decide), hseen⟩
  simp only [Url.authority, huser]
  exact ⟨userinfoLength_none hat, rfl⟩

/-- What is seen begins with the `?` or the `#`. -/
theorem Url.seen_head (u : Url) : ∀ c ∈ u.seen.head?, c ∈ ['?', '#'] := by
  have hhead := u.path_valid.1
  unfold Url.seen Url.suffix
  cases hpath : u.path with
  | cons c path =>
    obtain rfl : c = '/' := hhead c (by rw [hpath]; rfl)
    simp
  | nil =>
    cases u.query with
    | some query => simp [introduced]
    | none => cases u.fragment <;> simp [introduced]

/-- Nothing is seen behind the authority exactly if a path, or nothing at all,
    follows it. -/
theorem Url.seen_eq_nil_iff (u : Url) :
    u.seen = [] ↔ u.path ≠ [] ∨ (u.query = none ∧ u.fragment = none) := by
  have hhead := u.path_valid.1
  unfold Url.seen Url.suffix
  cases hpath : u.path with
  | cons c path =>
    obtain rfl : c = '/' := hhead c (by rw [hpath]; rfl)
    simp
  | nil =>
    cases u.query with
    | some query => simp [introduced]
    | none => cases u.fragment <;> simp [introduced]

/-- Without a userinfo, the first `@` is one that is seen behind the
    authority. -/
theorem lt_userinfoLength (huser : u.userinfo = none) (hseen : '@' ∈ u.seen) :
    u.hostPort.length + 1 < userinfoLength (u.authority ++ u.seen) := by
  obtain ⟨before, v, heq, hbefore⟩ := List.eq_append_cons_of_mem hseen
  have hat : '@' ∉ u.hostPort ++ before := by
    rw [List.mem_append, not_or]
    exact ⟨u.hostPort_without.not_mem (by decide), hbefore⟩
  -- what is seen begins with the `?` or the `#`, so the `@` is not the first of it
  have hpos : 0 < before.length := by
    cases before with
    | nil =>
      have hhead := u.seen_head '@' (by rw [heq]; rfl)
      exact absurd hhead (by decide)
    | cons c before => simp
  simp only [Url.authority, huser, heq]
  rw [← List.append_assoc, userinfoLength_first hat, List.length_append]
  omega

/-! ### The Host That Is Judged -/

/-- What ends the host in front of what is seen: nothing has to, or it
    does so itself. -/
def Url.Ends (u : Url) : Prop := u.seen = [] ∨ (∃ s, u.host = .ipv6 s) ∨ u.port ≠ none

/-- Host and port in front, which is not so only where an `@` of the query or the
    fragment is taken for the one behind a userinfo. -/
def Url.InFront (u : Url) : Prop := u.userinfo = none → '@' ∉ u.seen

/-- Where host and port stand in front, the host is found if something ends it. -/
theorem hostPiece_hostPort_iff (u : Url) :
    hostPiece (u.hostPort ++ u.seen) = ⟨u.host.offset, u.host.value.length⟩ ↔ u.Ends := by
  have hvalid := u.host_valid
  unfold Url.hostPort Url.Ends
  cases hhost : u.host with
  | ipv6 s =>
    rw [hhost] at hvalid
    have hs : ']' ∉ s := hvalid.not_mem (by decide)
    have hpiece : hostPiece ((Host.ipv6 s).text ++ introduced ':' u.port ++ u.seen) =
        ⟨1, s.length⟩ := by
      simp only [Host.text, List.cons_append, List.append_assoc, List.nil_append]
      exact hostPiece_ipv6 hs
    exact iff_of_true hpiece (.inr (.inl ⟨s, rfl⟩))
  | name s =>
    rw [hhost] at hvalid
    -- a name ends at the first `:`, or where the text ends
    have hopen : '[' ∉ s := hvalid.not_mem (by decide)
    have hcolon : ':' ∉ s := hvalid.not_mem (by decide)
    have hplain : ∀ rest, rest.head? ≠ some '[' →
        hostPiece (s ++ rest) = ⟨0, (beforeColon (s ++ rest)).length⟩ := by
      intro rest hrest
      apply hostPiece_plain
      cases s with
      | nil => exact hrest
      | cons c s =>
        intro h
        obtain rfl : c = '[' := Option.some.inj h
        exact hopen List.mem_cons_self
    have hhead : ∀ c ∈ u.seen.head?, c ≠ '[' ∧ c ≠ ':' := by
      intro c hc
      have hmem := u.seen_head c hc
      constructor <;> rintro rfl <;> exact absurd hmem (by decide)
    show hostPiece (s ++ introduced ':' u.port ++ u.seen) = ⟨0, s.length⟩ ↔ _
    cases hport : u.port with
    | some port =>
      have hpiece : hostPiece (s ++ introduced ':' (some port) ++ u.seen) = ⟨0, s.length⟩ := by
        rw [List.append_assoc, hplain _ (by simp [introduced])]
        simp only [introduced, List.cons_append]
        rw [beforeColon_first hcolon]
      exact iff_of_true hpiece (.inr (.inr (Option.some_ne_none port)))
    | none =>
      rw [introduced, List.append_nil, hplain _ fun h => (hhead _ h).1 rfl]
      constructor
      · intro heq
        by_contra hnot
        rw [not_or] at hnot
        have hlt := length_beforeColon_lt hcolon hnot.1 fun h => (hhead _ h).2 rfl
        rw [(Piece.mk.inj heq).2] at hlt
        exact lt_irrefl _ hlt
      · rintro (hnil | ⟨s', hs'⟩ | hne)
        · rw [hnil, List.append_nil, beforeColon_none hcolon]
        · cases hs'
        · exact absurd rfl hne

/-- The host stands where its piece says. -/
theorem Url.hostPiece_text (u : Url) : u.hostPiece.text u.string = u.host.value := by
  have huser : (u.authority ++ u.suffix).drop (match u.userinfo with
      | some s => s.length + 1
      | none => 0) = u.hostPort ++ u.suffix := by
    unfold Url.authority
    cases u.userinfo with
    | none => rfl
    | some s =>
      simp only [List.append_assoc, List.cons_append]
      rw [← List.drop_drop, List.drop_left]
      rfl
  unfold Piece.text Url.hostPiece Url.string
  rw [← List.drop_drop, ← List.drop_drop, drop_schemeMark, huser, Url.hostPort, List.append_assoc]
  cases u.host with
  | name s => exact List.take_left
  | ipv6 s =>
    show (s ++ [']'] ++ (introduced ':' u.port ++ u.suffix)).take s.length = s
    rw [List.append_assoc, List.take_left]

/-- Where the piece that is judged is the host of the URL. -/
theorem checkedPiece_iff (u : Url) :
    checkedPiece u.string = .ok u.hostPiece ↔ u.InFront ∧ u.Ends := by
  rw [checkedPiece_string, Except.ok.injEq, ← hostPiece_hostPort_iff]
  unfold authorityPiece Url.hostPiece
  cases huser : u.userinfo with
  | some user =>
    obtain ⟨hlength, hdrop⟩ := userinfoLength_some huser
    have hfront : u.InFront := fun hnone => absurd (huser.symm.trans hnone) (Option.some_ne_none _)
    rw [hlength, hdrop, and_iff_right hfront]
    exact Piece.shifted_iff
  | none =>
    by_cases hseen : '@' ∈ u.seen
    · -- the piece begins behind the host
      have hlt := lt_userinfoLength huser hseen
      have hnot : ¬u.InFront := fun hfront => hfront huser hseen
      refine iff_of_false ?_ fun h => hnot h.1
      intro heq
      have hstart := (Piece.mk.inj heq).1
      have hoffset : u.host.offset ≤ 1 := by cases u.host <;> simp [Host.offset]
      simp only at hstart
      omega
    · obtain ⟨hlength, hdrop⟩ := userinfoLength_plain huser hseen
      have hfront : u.InFront := fun _ => hseen
      rw [hlength, hdrop, and_iff_right hfront]
      exact Piece.shifted_iff

/-- **The host that is judged** is the host of the URL, taken from its
    place, if and only if nothing of query and fragment is seen behind the
    authority, or host and port are ended by themselves and no `@` stands
    there for the end of a userinfo. -/
theorem checkedHost_iff (u : Url) :
    (checkedPiece u.string = .ok u.hostPiece ∧ checkedHost u.string = .ok u.host.value) ↔
      u.InFront ∧ (u.seen = [] ∨ (∃ s, u.host = .ipv6 s) ∨ u.port ≠ none) := by
  refine Iff.trans ⟨And.left, fun h => ⟨h, ?_⟩⟩ (checkedPiece_iff u)
  rw [checkedHost_eq_text, h]
  exact congrArg Except.ok u.hostPiece_text

/-- No path, and an `@` in the query. -/
def questionUrl : Url where
  scheme := "http".toList
  userinfo := none
  host := .name "127.0.0.1".toList
  port := none
  path := []
  query := some "@example.com/".toList
  fragment := none
  scheme_valid := by decide
  userinfo_valid := by simp
  host_valid := by decide
  port_valid := by simp
  path_valid := ⟨by simp, by decide⟩
  query_valid := by simp [Without]

/-- The loopback address is asked for, and the host in the query is judged. -/
theorem question_judged : questionUrl.string = "http://127.0.0.1?@example.com/".toList ∧
    questionUrl.host.value = "127.0.0.1".toList ∧
    checkedHost questionUrl.string = .ok "example.com".toList := by decide

/-- The address is spelled in the query once more, and is taken from there. -/
example : checkedHost "http://127.0.0.1?@127.0.0.1/".toList = .ok "127.0.0.1".toList ∧
    checkedPiece "http://127.0.0.1?@127.0.0.1/".toList = .ok ⟨18, 9⟩ := by decide

end AsyncHttpClient

end Forge
