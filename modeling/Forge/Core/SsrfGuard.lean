import Forge.Core.AsyncHttpClient
import Forge.Framework.Networks

/-! # The SSRF Guard

  `check_ssrf` and what `get` and `post` of `AsyncHttpClient` do before they
  connect (`core/async_http_client.h`). Addresses are taken in network
  order, the first byte highest. `inet_pton` and `getaddrinfo` are those of
  the system (`Resolver`).

  - `isPrivateIpv4_iff`, `isPrivateIpv6_iff`: the tests of the bytes accept
    the networks their comments name, and no others;
  - `checkSsrf_ok_iff`: the guard lets a host through exactly if it has
    addresses, none of them in one of these networks;
  - `prepare_ok_iff`: from the URL to this, for its own host.
-/

namespace Forge

namespace AsyncHttpClient

open Network

/-! ### Private Addresses -/

/-- `is_private_ipv4`, after `ntohl`. -/
def isPrivateIpv4 (addr : BitVec 32) : Bool :=
  let a : BitVec 8 := ((addr >>> 24) &&& 0xFF).setWidth 8
  let b : BitVec 8 := ((addr >>> 16) &&& 0xFF).setWidth 8
  if a = 10 then true
  else if a = 172 ∧ b ≥ 16 ∧ b ≤ 31 then true
  else if a = 192 ∧ b = 168 then true
  else if a = 127 then true
  else if a = 169 ∧ b = 254 then true
  else if a = 0 then true
  else false

/-- `addr.s6_addr[i]` -/
def s6Addr (addr : BitVec 128) (i : ℕ) : BitVec 8 := addr.extractLsb' (8 * (15 - i)) 8

/-- `is_private_ipv6` -/
def isPrivateIpv6 (addr : BitVec 128) : Bool :=
  if addr = 1 then true
  else if addr = 0 then true
  else if s6Addr addr 0 = 0xfe ∧ s6Addr addr 1 &&& 0xc0 = 0x80 then true
  else if s6Addr addr 0 &&& 0xfe = 0xfc then true
  else
    let isV4Mapped := (List.range 10).all fun i => s6Addr addr i = 0
    if isV4Mapped ∧ s6Addr addr 10 = 0xff ∧ s6Addr addr 11 = 0xff then
      isPrivateIpv4 (addr.setWidth 32)
    else false

/-! ### The Guard -/

/-- An address of `addrinfo`, or one of another family. -/
inductive Address where
  | inet (addr : BitVec 32)
  | inet6 (addr : BitVec 128)
  | other
  deriving DecidableEq

/-- The functions of the system that the guard calls. -/
structure Resolver where
  inetPton : List Char → Option (BitVec 32)
  inetPton6 : List Char → Option (BitVec 128)
  getaddrinfo : List Char → Option (List Address)

/-- The loop over the addresses of a name. -/
def checkResolved (host : List Char) : List Address → Except String Unit
  | [] => .ok ()
  | .inet addr :: rest =>
      if isPrivateIpv4 addr then
        .error ("SSRF blocked: " ++ String.ofList host ++ " resolves to private IP")
      else checkResolved host rest
  | .inet6 addr :: rest =>
      if isPrivateIpv6 addr then
        .error ("SSRF blocked: " ++ String.ofList host ++ " resolves to private IPv6")
      else checkResolved host rest
  | .other :: rest => checkResolved host rest

/-- `host.c_str()` ends at the first NUL. -/
def cStr (host : List Char) : List Char := host.takeWhile (· ≠ '\x00')

/-- `check_ssrf` -/
def checkSsrf (sys : Resolver) (host : List Char) : Except String Unit :=
  if host.isEmpty then .error "SSRF blocked: empty host"
  else
    match sys.inetPton (cStr host) with
    | some v4 =>
        if isPrivateIpv4 v4 then .error ("SSRF blocked: private IP " ++ String.ofList host)
        else .ok ()
    | none =>
      match sys.inetPton6 (cStr host) with
      | some v6 =>
          if isPrivateIpv6 v6 then .error ("SSRF blocked: private IPv6 " ++ String.ofList host)
          else .ok ()
      | none =>
        match sys.getaddrinfo (cStr host) with
        | none => .error ("SSRF blocked: cannot resolve host " ++ String.ofList host)
        | some result => checkResolved host result

/-- What `get` and `post` do before they connect. -/
def prepare (sys : Resolver) (blockPrivateIps : Bool) (url : List Char) :
    Except String UrlParts := do
  let parts ← parseUrl url
  if blockPrivateIps then
    checkSsrf sys (extractHost parts.schemeHostPort)
  pure parts

/-! ### The Networks -/

/-- `a.b.0.0/len` -/
def cidr4 (a b : BitVec 8) (len : ℕ) (h : len ≤ 32) : Cidr 32 :=
  ⟨a ++ b ++ 0#16, len, h⟩

/-- The networks in the comments of `is_private_ipv4`. -/
def privateIpv4 : List (Cidr 32) :=
  [cidr4 10 0 8 (by decide), cidr4 172 16 12 (by decide), cidr4 192 168 16 (by decide),
    cidr4 127 0 8 (by decide), cidr4 169 254 16 (by decide), cidr4 0 0 8 (by decide)]

/-- The networks in the comments of `is_private_ipv6`: `::1`, `::`,
    `fe80::/10` and `fc00::/7`. -/
def privateIpv6 : List (Cidr 128) :=
  [⟨1, 128, by decide⟩, ⟨0, 128, by decide⟩, ⟨0xfe80#16 ++ 0#112, 10, by decide⟩,
    ⟨0xfc00#16 ++ 0#112, 7, by decide⟩]

/-- `::ffff:0:0/96` in front of an IPv4 network. -/
def v4Mapped (p : Cidr 32) : Cidr 128 := p.under (0xffff#96)

/-- The address is in a private network. -/
def Address.Private : Address → Prop
  | .inet addr => ∃ p ∈ privateIpv4, p.Contains addr
  | .inet6 addr => ∃ p ∈ privateIpv6 ++ privateIpv4.map v4Mapped, p.Contains addr
  | .other => False

instance (a : Address) : Decidable a.Private :=
  match a with
  | .inet addr => inferInstanceAs (Decidable (∃ p ∈ privateIpv4, p.Contains addr))
  | .inet6 addr =>
      inferInstanceAs (Decidable (∃ p ∈ privateIpv6 ++ privateIpv4.map v4Mapped, p.Contains addr))
  | .other => .isFalse id

/-- The addresses a host stands for: the one it spells, or those of the
    name. -/
def Resolver.addresses (sys : Resolver) (host : List Char) : Option (List Address) :=
  match sys.inetPton (cStr host) with
  | some v4 => some [.inet v4]
  | none =>
      match sys.inetPton6 (cStr host) with
      | some v6 => some [.inet6 v6]
      | none => sys.getaddrinfo (cStr host)

/-- What the guard is for. -/
def Resolver.Public (sys : Resolver) (host : List Char) : Prop :=
  host ≠ [] ∧ ∃ addrs ∈ sys.addresses host, ∀ a ∈ addrs, ¬a.Private

/-! ### The Tests of the Bytes -/

variable {sys : Resolver} {host url : List Char}

/-- A byte as a part of the number. -/
theorem byte_toNat (addr : BitVec 32) (n : ℕ) :
    (((addr >>> n) &&& 0xFF).setWidth 8).toNat = addr.toNat / 2 ^ n % 2 ^ 8 := by
  rw [BitVec.toNat_setWidth, BitVec.toNat_and, BitVec.toNat_ushiftRight,
    Nat.shiftRight_eq_div_pow, show (0xFF : BitVec 32).toNat = 2 ^ 8 - 1 from rfl,
    Nat.and_two_pow_sub_one_eq_mod, Nat.mod_mod]

theorem s6Addr_toNat (addr : BitVec 128) (i : ℕ) :
    (s6Addr addr i).toNat = addr.toNat / 2 ^ (8 * (15 - i)) % 2 ^ 8 := by
  rw [s6Addr, BitVec.extractLsb'_toNat, Nat.shiftRight_eq_div_pow]

theorem cidr4_contains {addr : BitVec 32} (a b : BitVec 8) (len : ℕ) (h : len ≤ 32) :
    (cidr4 a b len h).Contains addr ↔ addr.toNat / 2 ^ (32 - len) =
      (a.toNat * 2 ^ 24 + b.toNat * 2 ^ 16) / 2 ^ (32 - len) := by
  have hbase : (a ++ b ++ 0#16).toNat = a.toNat * 2 ^ 24 + b.toNat * 2 ^ 16 := by
    rw [BitVec.toNat_append, BitVec.toNat_append, BitVec.toNat_ofNat, Nat.zero_mod, Nat.or_zero,
      ← Nat.shiftLeft_add_eq_or_of_lt b.isLt, Nat.shiftLeft_eq, Nat.shiftLeft_eq]
    omega
  rw [Cidr.Contains, cidr4, hbase]

theorem isPrivateIpv4_iff {addr : BitVec 32} :
    isPrivateIpv4 addr = true ↔ (Address.inet addr).Private := by
  have hlt := addr.isLt
  have ha := byte_toNat addr 24
  have hb := byte_toNat addr 16
  have hcode : isPrivateIpv4 addr = true ↔
      (let a := addr.toNat / 2 ^ 24 % 2 ^ 8
       let b := addr.toNat / 2 ^ 16 % 2 ^ 8
       a = 10 ∨ (a = 172 ∧ 16 ≤ b ∧ b ≤ 31) ∨ (a = 192 ∧ b = 168) ∨ a = 127 ∨
         (a = 169 ∧ b = 254) ∨ a = 0) := by
    simp only [isPrivateIpv4, ← BitVec.toNat_inj, BitVec.le_def, ge_iff_le, ha, hb,
      Bool.if_true_left, Bool.or_eq_true, decide_eq_true_eq, Bool.false_eq_true, or_false]
    rfl
  have hnets : (Address.inet addr).Private ↔ addr.toNat / 2 ^ 24 = 10 ∨
      addr.toNat / 2 ^ 20 = 172 * 16 + 1 ∨ addr.toNat / 2 ^ 16 = 192 * 256 + 168 ∨
      addr.toNat / 2 ^ 24 = 127 ∨ addr.toNat / 2 ^ 16 = 169 * 256 + 254 ∨
      addr.toNat / 2 ^ 24 = 0 := by
    simp only [Address.Private, privateIpv4, cidr4_contains, List.mem_cons, List.not_mem_nil,
      or_false, exists_eq_or_imp, exists_eq_left]
    rfl
  rw [hcode, hnets]
  generalize addr.toNat = n at hlt
  refine or_congr ?_ (or_congr ?_ (or_congr ?_ (or_congr ?_ (or_congr ?_ ?_))))
  · omega
  · omega
  · omega
  · omega
  · omega
  · omega

/-- The bytes in front of byte `n` are zero. -/
theorem zeros_iff {addr : BitVec 128} {n : ℕ} (hn : n ≤ 16) :
    (((List.range n).all fun i => s6Addr addr i = 0) = true) ↔
      addr.toNat / 2 ^ (8 * (16 - n)) = 0 := by
  induction n with
  | zero =>
    have : addr.toNat / 2 ^ 128 = 0 := Nat.div_eq_of_lt addr.isLt
    simpa using this
  | succ n ih =>
    have hbyte : s6Addr addr n = 0 ↔ addr.toNat / 2 ^ (8 * (15 - n)) % 2 ^ 8 = 0 := by
      rw [← BitVec.toNat_inj, s6Addr_toNat]
      rfl
    have hexp : 8 * (16 - n) = 8 * (15 - n) + 8 := by omega
    have hdiv : addr.toNat / 2 ^ (8 * (16 - n)) = addr.toNat / 2 ^ (8 * (15 - n)) / 2 ^ 8 := by
      rw [hexp, Nat.pow_add, Nat.div_div_eq_div_mul]
    rw [List.range_succ, List.all_append, Bool.and_eq_true, ih (by omega), hdiv]
    simp only [List.all_cons, List.all_nil, Bool.and_true, decide_eq_true_eq, hbyte]
    rw [show 16 - (n + 1) = 15 - n by omega]
    omega

/-- The comparisons of `fe80::/10` and `fc00::/7`. -/
theorem linkLocal_bits : ∀ b : BitVec 8, b &&& 0xc0 = 0x80 ↔ b.toNat / 2 ^ 6 = 2 := by decide

theorem uniqueLocal_bits : ∀ b : BitVec 8, b &&& 0xfe = 0xfc ↔ b.toNat / 2 = 126 := by decide

theorem isPrivateIpv6_iff {addr : BitVec 128} :
    isPrivateIpv6 addr = true ↔ (Address.inet6 addr).Private := by
  have hlt := addr.isLt
  have h0 := s6Addr_toNat addr 0
  have h1 := s6Addr_toNat addr 1
  have h10 := s6Addr_toNat addr 10
  have h11 := s6Addr_toNat addr 11
  have hv4 : isPrivateIpv4 (addr.setWidth 32) = true ↔
      ∃ p ∈ privateIpv4, p.Contains (addr.setWidth 32) := isPrivateIpv4_iff
  -- an IPv4 address in front of which the mapped prefix stands
  have hmapped : (∃ p ∈ privateIpv4.map v4Mapped, p.Contains addr) ↔
      addr.toNat / 2 ^ 32 = 0xffff ∧ isPrivateIpv4 (addr.setWidth 32) = true := by
    rw [hv4]
    constructor
    · rintro ⟨_, hmem, hcon⟩
      obtain ⟨p, hp, rfl⟩ := List.mem_map.mp hmem
      have := Cidr.under_contains.mp hcon
      exact ⟨this.1, p, hp, this.2⟩
    · rintro ⟨hhigh, p, hp, hcon⟩
      exact ⟨v4Mapped p, List.mem_map_of_mem hp, Cidr.under_contains.mpr ⟨hhigh, hcon⟩⟩
  have hcode : isPrivateIpv6 addr = true ↔ addr.toNat = 1 ∨ addr.toNat = 0 ∨
      (addr.toNat / 2 ^ 120 % 2 ^ 8 = 0xfe ∧ addr.toNat / 2 ^ 112 % 2 ^ 8 / 2 ^ 6 = 2) ∨
      addr.toNat / 2 ^ 120 % 2 ^ 8 / 2 = 126 ∨
      ((addr.toNat / 2 ^ 48 = 0 ∧ addr.toNat / 2 ^ 40 % 2 ^ 8 = 0xff ∧
        addr.toNat / 2 ^ 32 % 2 ^ 8 = 0xff) ∧ isPrivateIpv4 (addr.setWidth 32) = true) := by
    simp only [isPrivateIpv6, zeros_iff (show 10 ≤ 16 by decide), linkLocal_bits, uniqueLocal_bits,
      Bool.if_true_left, Bool.if_false_right, Bool.or_eq_true, Bool.and_eq_true, decide_eq_true_eq]
    simp only [← BitVec.toNat_inj, h0, h1, h10, h11]
    rfl
  have hbase : (∃ p ∈ privateIpv6, p.Contains addr) ↔ addr.toNat = 1 ∨ addr.toNat = 0 ∨
      addr.toNat / 2 ^ 118 = 0x3fa ∨ addr.toNat / 2 ^ 121 = 126 := by
    simp only [privateIpv6, Cidr.Contains, List.mem_cons, List.not_mem_nil, or_false,
      exists_eq_or_imp, exists_eq_left, Nat.sub_self, Nat.pow_zero, Nat.div_one]
    rfl
  rw [hcode, Address.Private]
  simp only [List.mem_append, or_and_right, exists_or, hmapped, hbase, or_assoc]
  generalize addr.toNat = n at hlt
  refine or_congr Iff.rfl (or_congr Iff.rfl (or_congr ?_ (or_congr ?_ (and_congr_left' ?_))))
  · omega
  · omega
  · omega

/-! ### The Guard and the Addresses -/

theorem checkResolved_ok_iff {addrs : List Address} :
    checkResolved host addrs = .ok () ↔ ∀ a ∈ addrs, ¬a.Private := by
  induction addrs with
  | nil => simp [checkResolved]
  | cons a rest ih =>
    rw [List.forall_mem_cons, ← ih]
    cases a with
    | inet addr =>
      rw [checkResolved, ← isPrivateIpv4_iff]
      split
      · next h => simp [h]
      · next h => simp [h]
    | inet6 addr =>
      rw [checkResolved, ← isPrivateIpv6_iff]
      split
      · next h => simp [h]
      · next h => simp [h]
    | other => simp [checkResolved, Address.Private]

theorem checkSsrf_ok_iff : checkSsrf sys host = .ok () ↔ sys.Public host := by
  unfold checkSsrf Resolver.Public Resolver.addresses
  by_cases hhost : host = []
  · simp [hhost]
  · rw [if_neg (by simpa using hhost)]
    simp only [ne_eq, hhost, not_false_eq_true, true_and]
    cases sys.inetPton (cStr host) with
    | some v4 =>
      simp only [Option.mem_some_iff, exists_eq_left', List.forall_mem_singleton,
        ← isPrivateIpv4_iff]
      split
      · next h => simp [h]
      · next h => simp [h]
    | none =>
      cases sys.inetPton6 (cStr host) with
      | some v6 =>
        simp only [Option.mem_some_iff, exists_eq_left', List.forall_mem_singleton,
          ← isPrivateIpv6_iff]
        split
        · next h => simp [h]
        · next h => simp [h]
      | none =>
        cases sys.getaddrinfo (cStr host) with
        | none => simp
        | some result => simp [checkResolved_ok_iff]

/-! ### Requests -/

/-- A URL without `?` or `#` right behind the authority is split there. -/
theorem parseUrl_string {u : Url} (hseen : u.seen = []) : parseUrl u.string =
    .ok ⟨u.scheme ++ schemeMark ++ u.authority, if u.suffix = [] then ['/'] else u.suffix⟩ := by
  have hscheme : ':' ∉ u.scheme := u.scheme_valid.not_mem (by decide)
  have hslash : ∀ c ∈ u.authority, (c != '/') = true := by
    intro c hc
    have hne : c ≠ '/' := by
      rintro rfl
      exact u.authority_without _ hc (by decide)
    simpa using hne
  have htake : (u.authority ++ u.suffix).takeWhile (· != '/') = u.authority := by
    rw [List.takeWhile_append_of_pos hslash, show u.suffix.takeWhile _ = [] from hseen,
      List.append_nil]
  have hdrop : (u.authority ++ u.suffix).dropWhile (· != '/') = u.suffix := by
    have := List.takeWhile_append_dropWhile (p := (· != '/')) (l := u.authority ++ u.suffix)
    rw [htake] at this
    exact List.append_cancel_left this
  have hpath : pathOf (u.authority ++ u.suffix) = if u.suffix = [] then ['/'] else u.suffix := by
    unfold pathOf
    rw [hdrop]
    cases u.suffix with
    | nil => rfl
    | cons c s => rfl
  unfold Url.string
  rw [parseUrl_eq hscheme, htake, hpath]

/-- And its own host is the one that is taken out. -/
theorem extractHost_authority {u : Url} (hseen : u.seen = []) :
    extractHost (u.scheme ++ schemeMark ++ u.authority) = u.host.value := by
  have hfront : u.InFront := by
    intro _
    simp [hseen]
  have hchecked : checkedHost u.string = .ok u.host.value := by
    rw [checkedHost_eq_text, (checkedPiece_iff u).mpr ⟨hfront, .inl hseen⟩]
    exact congrArg Except.ok u.hostPiece_text
  rw [checkedHost, parseUrl_string hseen] at hchecked
  exact Except.ok.inj hchecked

/-- A request for such a URL goes on exactly if the host of the URL has
    addresses, all of them public, and then to that authority, with all that
    follows it, the fragment included. -/
theorem prepare_ok_iff (u : Url) (parts : UrlParts)
    (hpath : u.path ≠ [] ∨ (u.query = none ∧ u.fragment = none)) :
    prepare sys true u.string = .ok parts ↔ sys.Public u.host.value ∧
      parts = ⟨u.scheme ++ schemeMark ++ u.authority,
        if u.suffix = [] then ['/'] else u.suffix⟩ := by
  have hseen : u.seen = [] := u.seen_eq_nil_iff.mpr hpath
  have hprep : prepare sys true u.string =
      (checkSsrf sys u.host.value).map fun _ => ⟨u.scheme ++ schemeMark ++ u.authority,
        if u.suffix = [] then ['/'] else u.suffix⟩ := by
    unfold prepare
    rw [parseUrl_string hseen]
    show (checkSsrf sys (extractHost (u.scheme ++ schemeMark ++ u.authority)) >>= _) = _
    rw [extractHost_authority hseen]
    cases checkSsrf sys u.host.value with
    | error e => rfl
    | ok v => rfl
  rw [hprep, ← checkSsrf_ok_iff]
  cases checkSsrf sys u.host.value with
  | error e => simp [Except.map]
  | ok v =>
    simp only [Except.map, Except.ok.injEq, true_and]
    exact eq_comm

/-- A name with a port, in front of a path. -/
def portUrl : Url where
  scheme := "https".toList
  userinfo := some "me".toList
  host := .name "db".toList
  port := some "443".toList
  path := "/x".toList
  query := some "@a.b".toList
  fragment := none
  scheme_valid := by decide
  userinfo_valid := by
    intro s hs
    obtain rfl := Option.some.inj hs
    decide
  host_valid := by decide
  port_valid := by
    intro s hs
    obtain rfl := Option.some.inj hs
    decide
  path_valid := ⟨fun c hc => (Option.some.inj (show some '/' = some c from hc)).symm, by decide⟩
  query_valid := by
    intro s hs
    obtain rfl := Option.some.inj hs
    decide

/-- The one name has these addresses. -/
def resolving (addrs : List Address) : Resolver where
  inetPton _ := none
  inetPton6 _ := none
  getaddrinfo host := if host = "db".toList then some addrs else none

/-- A public address lets the request through, and a link-local one next to
    it stops it. -/
theorem portUrl_prepared :
    (portUrl.path ≠ [] ∨ (portUrl.query = none ∧ portUrl.fragment = none)) ∧
    prepare (resolving [.inet6 (0x20010db8#32 ++ 1#96)]) true portUrl.string =
      .ok ⟨"https://me@db:443".toList, "/x?@a.b".toList⟩ ∧
    prepare (resolving [.inet6 (0x20010db8#32 ++ 1#96), .inet 0xa9fea9fe#32]) true
        portUrl.string ≠
      .ok ⟨"https://me@db:443".toList, "/x?@a.b".toList⟩ := by
  have hpath : portUrl.path ≠ [] ∨
      (portUrl.query = none ∧ portUrl.fragment = none) := .inl (by simp [portUrl])
  have hname : cStr portUrl.host.value = "db".toList := by decide +kernel
  have haddrs : ∀ addrs, (resolving addrs).addresses portUrl.host.value = some addrs := by
    intro addrs
    simp only [Resolver.addresses, resolving, hname, if_true]
  refine ⟨hpath, (prepare_ok_iff portUrl _ hpath).mpr
    ⟨⟨by decide +kernel, _, haddrs _, ?_⟩, by decide +kernel⟩,
    ?_⟩
  · intro a ha
    obtain rfl := List.mem_singleton.mp ha
    decide +kernel
  · intro hok
    obtain ⟨⟨-, addrs, hmem, hall⟩, -⟩ := (prepare_ok_iff portUrl _ hpath).mp hok
    obtain rfl := Option.some.inj ((haddrs _).symm.trans hmem)
    exact hall (.inet 0xa9fea9fe#32) (List.mem_cons_of_mem _ List.mem_cons_self) (by decide +kernel)

end AsyncHttpClient

end Forge
