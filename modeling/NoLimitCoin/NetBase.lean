import NoLimitCoin.Base64
import NoLimitCoin.Money

/-!
# Network addresses as text

`netbase.cpp` keeps IPv4, IPv6, Tor and I2P addresses in 16 bytes, told apart by their prefixes.
Tor and I2P names are the base32 of the ten bytes behind the prefix; the text of the others comes
from `getnameinfo` and is read by `getaddrinfo`.

Results:
1. `setSpecial_tor`, `setSpecial_i2p`: a Tor name is read back, an I2P name becomes a Tor address.
2. `setSpecial_text`: which names are the text of the address that they give.
3. `splitHostPort_toStringIPPort`: text and port are told apart.
4. `netBase_text`: when the printed form is read back.
5. `not_netBase_text`: it is not for I2P, and a name may have anything behind its characters.
-/

namespace NoLimitCoin.NetBase

open Regroup

/-! ## Characters and numbers -/

def charColon : UInt8 := 58
def charOpen : UInt8 := 91
def charClose : UInt8 := 93

/-- `find_last_of`, with the characters it looks at. -/
def findLastOf (c : UInt8) : List UInt8 → Option Nat
  | [] => none
  | d :: str =>
    match findLastOf c str with
    | some i => some (i + 1)
    | none => if d = c then some 0 else none

/-- `strtol` in base 10: the number, and what is left of the string. -/
def strtol (str : List UInt8) : Int × List UInt8 :=
  let p := str.dropWhile isSpace
  let digits := if p.head? = some 45 ∨ p.head? = some 43 then p.drop 1 else p
  if digits.takeWhile isDigit = [] then (0, str)
  else if p.head? = some 45 then
    (max (-2 ^ 63) (-(readDigits 0 digits : Int)), digits.dropWhile isDigit)
  else (min (2 ^ 63 - 1) (readDigits 0 digits : Int), digits.dropWhile isDigit)

/-- `SplitHostPort` up to the brackets: `portOut` and what is left of the string. -/
def splitPort (str : List UInt8) (portOut : Int) : Int × List UInt8 :=
  match findLastOf charColon str with
  | none => (portOut, str)
  | some colon =>
    let fBracketed := str.getD 0 0 = charOpen ∧ str.getD (colon - 1) 0 = charClose
    let fMultiColon := (findLastOf charColon (if colon = 0 then str else str.take colon)).isSome
    if colon = 0 ∨ fBracketed ∨ fMultiColon = false then
      let endp := strtol (cStr (str.drop (colon + 1)))
      let n := Int.bmod endp.1 (2 ^ 32)
      if endp.2 = [] ∧ 0 ≤ n then
        (if 0 < n ∧ n < 0x10000 then n else portOut, str.take colon)
      else (portOut, str)
    else (portOut, str)

/-- A host without the brackets around it. -/
def hostOf (str : List UInt8) : List UInt8 :=
  if 0 < str.length ∧ str.getD 0 0 = charOpen ∧ str.getD (str.length - 1) 0 = charClose then
    (str.drop 1).take (str.length - 2)
  else str

/-- `SplitHostPort`: `portOut` and `hostOut`. -/
def splitHostPort (str : List UInt8) (portOut : Int) : Int × List UInt8 :=
  ((splitPort str portOut).1, hostOf (splitPort str portOut).2)

/-! ## Addresses -/

/-- Bytes of one length. -/
abbrev Octets (n : Nat) := { bytes : List UInt8 // bytes.length = n }

structure CNetAddr where
  /-- in network byte order -/
  ip : Octets 16
deriving DecidableEq

structure CService where
  addr : CNetAddr
  port : UInt16
deriving DecidableEq

/-- What `GetSockAddr` fills in for `getnameinfo`, and what `getaddrinfo` returns. -/
inductive SockAddr where
  | inet (sin_addr : Octets 4)
  | inet6 (sin6_addr : Octets 16)
deriving DecidableEq

/-- The resolver: `getnameinfo` with `NI_NUMERICHOST`, and `getaddrinfo` with `fAllowLookup`. -/
structure NetEnv where
  getnameinfo : SockAddr → Option (List UInt8)
  getaddrinfo : (fAllowLookup : Bool) → List UInt8 → List SockAddr

def pchIPv4 : List UInt8 := [0, 0, 0, 0, 0, 0, 0, 0, 0, 0, 0xff, 0xff]
def pchOnionCat : List UInt8 := [0xFD, 0x87, 0xD8, 0x7E, 0xEB, 0x43]
def pchGarliCat : List UInt8 := [0xFD, 0x60, 0xDB, 0x4D, 0xDD, 0xB5]

def onionSuffix : List UInt8 := ".onion".toUTF8.toList
def i2pSuffix : List UInt8 := ".oc.b32.i2p".toUTF8.toList

namespace CNetAddr

variable (env : NetEnv) (a : CNetAddr)

def getByte (n : Nat) : UInt8 := a.ip.1.getD (15 - n) 0

def isIPv4 : Bool := decide (a.ip.1.take pchIPv4.length = pchIPv4)

def isTor : Bool := decide (a.ip.1.take pchOnionCat.length = pchOnionCat)

def isI2P : Bool := decide (a.ip.1.take pchGarliCat.length = pchGarliCat)

def isIPv6 : Bool := !a.isIPv4 && !a.isTor && !a.isI2P

/-- A prefix and the decoded bytes behind it, if they are as many as there is room for. -/
def setBytes (pch vchAddr : List UInt8) : Option CNetAddr :=
  if h : pch.length + vchAddr.length = 16 then
    some ⟨pch ++ vchAddr, by rw [List.length_append, h]⟩
  else none

/-- `SetSpecial`; `none` where it fails and leaves the address as it was. -/
def setSpecial (strName : List UInt8) : Option CNetAddr :=
  if 6 < strName.length ∧ strName.drop (strName.length - 6) = onionSuffix then
    setBytes pchOnionCat (decodeBase32 (cStr (strName.take (strName.length - 6)))).1
  else if 11 < strName.length ∧ strName.drop (strName.length - 11) = i2pSuffix then
    -- the prefix that is copied is the one of Tor
    setBytes (pchOnionCat.take pchGarliCat.length)
      (decodeBase32 (cStr (strName.take (strName.length - 11)))).1
  else none

/-- `CNetAddr(in_addr)` and `CNetAddr(in6_addr)`. -/
def ofSockAddr : SockAddr → CNetAddr
  | .inet ipv4Addr => ⟨pchIPv4 ++ ipv4Addr.1, by rw [List.length_append, ipv4Addr.2]; rfl⟩
  | .inet6 ipv6Addr => ⟨ipv6Addr⟩

/-- `GetSockAddr` of the address with a port. -/
def getSockAddr : Option SockAddr :=
  if a.isIPv4 then some (.inet ⟨a.ip.1.drop 12, by rw [List.length_drop, a.ip.2]⟩)
  else if a.isIPv6 then some (.inet6 a.ip)
  else none

/-- The digits of `%x`. -/
def hex (n : Nat) : List UInt8 :=
  if n = 0 then [48]
  else ((Nat.digits 16 n).map fun d => UInt8.ofNat (if d < 10 then 48 + d else 87 + d)).reverse

/-- The text where there is no name: the bytes, or pairs of them. -/
def numericText : List UInt8 :=
  if a.isIPv4 then
    List.intercalate [46] ([3, 2, 1, 0].map fun n => decimal (a.getByte n).toNat)
  else
    List.intercalate [charColon] ([15, 13, 11, 9, 7, 5, 3, 1].map fun n =>
      hex ((a.getByte n).toNat <<< 8 ||| (a.getByte (n - 1)).toNat))

/-- `ToStringIP`. -/
def toStringIP : List UInt8 :=
  if a.isTor then encodeBase32 ((a.ip.1.drop 6).take 10) ++ onionSuffix
  else if a.isI2P then encodeBase32 ((a.ip.1.drop 6).take 10) ++ i2pSuffix
  else
    match a.getSockAddr.bind env.getnameinfo with
    | some name => name
    | none => a.numericText

end CNetAddr

/-! ## Services -/

/-- `LookupIntern`, where no bound on the solutions is 0. -/
def lookupIntern (env : NetEnv) (pszName : List UInt8) (nMaxSolutions : Nat)
    (fAllowLookup : Bool) : Option (List CNetAddr) :=
  match CNetAddr.setSpecial pszName with
  | some addr => some [addr]
  | none =>
    let aiRes := (env.getaddrinfo fAllowLookup pszName).map CNetAddr.ofSockAddr
    let vIP := if nMaxSolutions = 0 then aiRes else aiRes.take nMaxSolutions
    if vIP = [] then none else some vIP

/-- `Lookup` for one service. -/
def lookup (env : NetEnv) (pszName : List UInt8) (portDefault : Int) (fAllowLookup : Bool) :
    Option CService :=
  if pszName = [] then none
  else
    let split := splitHostPort pszName portDefault
    match lookupIntern env (cStr split.2) 1 fAllowLookup with
    | some (ip :: _) => some ⟨ip, UInt16.ofNat (split.1 % 2 ^ 16).toNat⟩
    | _ => none

namespace CService

variable (env : NetEnv) (serv : CService)

/-- `CService(strIpPort, portDefault, fAllowLookup)`. -/
def ofString (strIpPort : List UInt8) (portDefault : Int) (fAllowLookup : Bool) : CService :=
  (lookup env (cStr strIpPort) portDefault fAllowLookup).getD
    ⟨⟨List.replicate 16 0, List.length_replicate⟩, 0⟩

def toStringPort : List UInt8 := decimal serv.port.toNat

/-- `ToStringIPPort`. -/
def toStringIPPort : List UInt8 :=
  if serv.addr.isIPv4 ∨ serv.addr.isTor ∨ serv.addr.isI2P then
    serv.addr.toStringIP env ++ [charColon] ++ serv.toStringPort
  else [charOpen] ++ serv.addr.toStringIP env ++ [charClose, charColon] ++ serv.toStringPort

end CService

/-! ## Host and port -/

theorem findLastOf_eq_none {c : UInt8} {str : List UInt8} (h : c ∉ str) :
    findLastOf c str = none := by
  induction str with
  | nil => rfl
  | cons d str ih =>
    rw [List.mem_cons, not_or] at h
    rw [findLastOf, ih h.2]
    exact if_neg fun hd => h.1 hd.symm

theorem findLastOf_append (c : UInt8) (str : List UInt8) {rest : List UInt8} (h : c ∉ rest) :
    findLastOf c (str ++ c :: rest) = some str.length := by
  induction str with
  | nil =>
    rw [List.nil_append, findLastOf, findLastOf_eq_none h]
    exact if_pos rfl
  | cons d str ih => rw [List.cons_append, findLastOf, ih, List.length_cons]

/-- `strtol` reads all of a decimal number. -/
theorem strtol_decimal {n : Nat} (h : n < 2 ^ 63) : strtol (decimal n) = ((n : Int), []) := by
  obtain ⟨c, str, hdecimal, hdigit⟩ := decimal_head n
  have hbounds := isDigit_iff.mp hdigit
  have hspace : isSpace c = false := by
    refine decide_eq_false ?_
    rintro (hlow | rfl)
    · omega
    · exact absurd hdigit (by decide)
  have hminus : (c :: str).head? ≠ some 45 := fun h => by
    rw [Option.some.inj h] at hdigit
    exact absurd hdigit (by decide)
  have hplus : (c :: str).head? ≠ some 43 := fun h => by
    rw [Option.some.inj h] at hdigit
    exact absurd hdigit (by decide)
  have hall := decimal_digits n
  have hvalue := readDigits_decimal n
  rw [hdecimal] at hall hvalue ⊢
  have hdrop : (c :: str).dropWhile isSpace = c :: str :=
    List.dropWhile_cons_of_neg (by rw [hspace]; decide)
  unfold strtol
  dsimp only
  rw [hdrop, if_neg (not_or.mpr ⟨hminus, hplus⟩), if_neg hminus,
    List.takeWhile_eq_self_iff.mpr hall, if_neg (List.cons_ne_nil c str),
    List.dropWhile_eq_nil_iff.mpr hall, hvalue, min_eq_right (by omega)]

theorem charColon_notMem_decimal (n : Nat) : charColon ∉ decimal n := fun h =>
  absurd (decimal_digits n charColon h) (by decide)

theorem zero_notMem_decimal (n : Nat) : 0 ∉ decimal n := fun h =>
  absurd (decimal_digits n 0 h) (by decide)

/-- The last colon stands in front of a port when it is the only one or follows a bracket. -/
theorem splitPort_port {host : List UInt8} (port : UInt16)
    (hhost : charColon ∉ host ∨
      host.getD 0 0 = charOpen ∧ host.getD (host.length - 1) 0 = charClose) :
    splitPort (host ++ charColon :: decimal port.toNat) 0 = ((port.toNat : Int), host) := by
  have hport : port.toNat < 2 ^ 16 := port.toNat_lt
  have hlast := findLastOf_append charColon host (charColon_notMem_decimal port.toNat)
  have htake : (host ++ charColon :: decimal port.toNat).take host.length = host :=
    List.take_left' rfl
  have hdrop : (host ++ charColon :: decimal port.toNat).drop (host.length + 1) =
      decimal port.toNat := by
    rw [← List.drop_drop, List.drop_left' rfl]
    rfl
  have hnumber : Int.bmod (port.toNat : Int) (2 ^ 32) = port.toNat :=
    Int.bmod_eq_of_le (by omega) (by omega)
  have hout : (if 0 < (port.toNat : Int) ∧ (port.toNat : Int) < 0x10000 then (port.toNat : Int)
      else 0) = port.toNat := by
    by_cases hzero : port.toNat = 0
    · rw [hzero]
      exact if_neg fun h => absurd h.1 (by decide)
    · exact if_pos ⟨by omega, by omega⟩
  have hcond : host.length = 0 ∨
      ((host ++ charColon :: decimal port.toNat).getD 0 0 = charOpen ∧
        (host ++ charColon :: decimal port.toNat).getD (host.length - 1) 0 = charClose) ∨
      (findLastOf charColon (if host.length = 0 then host ++ charColon :: decimal port.toNat
        else host)).isSome = false := by
    by_cases hempty : host.length = 0
    · exact .inl hempty
    · rw [if_neg hempty]
      rcases hhost with hcolon | hbrackets
      · exact .inr (.inr (by rw [findLastOf_eq_none hcolon]; rfl))
      · refine .inr (.inl ?_)
        rwa [List.getD_append _ _ _ _ (by omega), List.getD_append _ _ _ _ (by omega)]
  unfold splitPort
  rw [hlast]
  dsimp only
  rw [htake, if_pos hcond, hdrop, cStr_eq (zero_notMem_decimal _), strtol_decimal (by omega)]
  dsimp only
  rw [hnumber, if_pos ⟨rfl, by omega⟩, hout]

theorem hostOf_plain {str : List UInt8} (h : str.getD 0 0 ≠ charOpen) : hostOf str = str :=
  if_neg fun hbrackets => h hbrackets.2.1

theorem hostOf_brackets (host : List UInt8) :
    hostOf (charOpen :: (host ++ [charClose])) = host := by
  have hlength : (charOpen :: (host ++ [charClose])).length = host.length + 2 := by
    rw [List.length_cons, List.length_append, List.length_singleton]
  have hlast : (charOpen :: (host ++ [charClose])).getD (host.length + 1) 0 = charClose := by
    simp [List.getD_eq_getElem?_getD]
  unfold hostOf
  rw [hlength, Nat.add_sub_cancel, if_pos ⟨Nat.succ_pos _, rfl, hlast⟩]
  exact List.take_left' rfl

/-! ## Special names -/

theorem length_onionSuffix : onionSuffix.length = 6 := by decide +kernel

theorem length_i2pSuffix : i2pSuffix.length = 11 := by decide +kernel

/-- The suffixes are in lower case, and end in different letters. -/
theorem suffixes_lower :
    onionSuffix.map toLower = onionSuffix ∧ i2pSuffix.map toLower = i2pSuffix := by
  decide +kernel

theorem onion_ne_i2p (name name' : List UInt8) : name ++ onionSuffix ≠ name' ++ i2pSuffix := by
  intro h
  have hlast := congrArg List.getLast? h
  rw [List.getLast?_append_of_ne_nil _ (by decide +kernel),
    List.getLast?_append_of_ne_nil _ (by decide +kernel)] at hlast
  exact absurd hlast (by decide +kernel)

namespace CNetAddr

theorem ext_ip {a b : CNetAddr} (h : a.ip.1 = b.ip.1) : a = b := by
  obtain ⟨ip⟩ := a
  obtain ⟨ip'⟩ := b
  exact congrArg CNetAddr.mk (Subtype.ext h)

/-- A suffix is cut off exactly when there is one, with something in front. -/
theorem hasSuffix_iff (str suffix : List UInt8) :
    suffix.length < str.length ∧ str.drop (str.length - suffix.length) = suffix ↔
      ∃ name, name ≠ [] ∧ str = name ++ suffix := by
  constructor
  · rintro ⟨hlength, hdrop⟩
    refine ⟨str.take (str.length - suffix.length), fun hnil => ?_, ?_⟩
    · have hcount := congrArg List.length hnil
      rw [List.length_take, List.length_nil] at hcount
      omega
    · conv_lhs => rw [← List.take_append_drop (str.length - suffix.length) str, hdrop]
  · rintro ⟨name, hname, rfl⟩
    have hpos := List.length_pos_of_ne_nil hname
    rw [List.length_append, Nat.add_sub_cancel, List.drop_left' rfl]
    exact ⟨by omega, rfl⟩

theorem take_suffix (name suffix : List UInt8) :
    (name ++ suffix).take ((name ++ suffix).length - suffix.length) = name := by
  rw [List.length_append, Nat.add_sub_cancel, List.take_left' rfl]

theorem setBytes_iff (pch vchAddr : List UInt8) (a : CNetAddr) :
    setBytes pch vchAddr = some a ↔ a.ip.1 = pch ++ vchAddr := by
  unfold setBytes
  constructor
  · intro h
    split at h
    · rw [← Option.some.inj h]
    · cases h
  · intro h
    rw [dif_pos (by rw [← List.length_append, ← h, a.ip.2])]
    exact congrArg some (ext_ip h.symm)

/-- Both kinds of names give the ten bytes behind the prefix of Tor. -/
theorem setSpecial_iff (strName : List UInt8) (a : CNetAddr) :
    setSpecial strName = some a ↔
      ∃ name, name ≠ [] ∧ (strName = name ++ onionSuffix ∨ strName = name ++ i2pSuffix) ∧
        a.ip.1 = pchOnionCat ++ (decodeBase32 (cStr name)).1 := by
  have honion := hasSuffix_iff strName onionSuffix
  have hi2p := hasSuffix_iff strName i2pSuffix
  rw [length_onionSuffix] at honion
  rw [length_i2pSuffix] at hi2p
  unfold setSpecial
  by_cases hfirst : 6 < strName.length ∧ strName.drop (strName.length - 6) = onionSuffix
  · obtain ⟨name, hname, rfl⟩ := honion.mp hfirst
    have htake := take_suffix name onionSuffix
    rw [length_onionSuffix] at htake
    rw [if_pos hfirst, htake, setBytes_iff]
    constructor
    · exact fun h => ⟨name, hname, .inl rfl, h⟩
    · rintro ⟨name', -, hstr | hstr, hip⟩
      · rwa [List.append_cancel_right hstr]
      · exact absurd hstr (onion_ne_i2p _ _)
  · rw [if_neg hfirst]
    by_cases hsecond : 11 < strName.length ∧ strName.drop (strName.length - 11) = i2pSuffix
    · obtain ⟨name, hname, rfl⟩ := hi2p.mp hsecond
      have htake := take_suffix name i2pSuffix
      rw [length_i2pSuffix] at htake
      rw [if_pos hsecond, htake, setBytes_iff]
      constructor
      · exact fun h => ⟨name, hname, .inr rfl, h⟩
      · rintro ⟨name', -, hstr | hstr, hip⟩
        · exact absurd hstr.symm (onion_ne_i2p _ _)
        · rwa [List.append_cancel_right hstr]
    · rw [if_neg hsecond]
      refine ⟨nofun, ?_⟩
      rintro ⟨name, hname, hstr | hstr, -⟩
      · exact absurd (honion.mpr ⟨name, hname, hstr⟩) hfirst
      · exact absurd (hi2p.mpr ⟨name, hname, hstr⟩) hsecond

/-! ## The base32 of ten bytes -/

theorem base32_length {vch : List UInt8} (h : vch.length = 10) :
    (encodeBase32 vch).length = 16 ∧
      ∀ c ∈ encodeBase32 vch, (tableEntry decode32Table c).isSome = true := by
  obtain ⟨htext, hlength⟩ := base32_laws.encodeText_whole (by rw [h]; decide : 5 ∣ 8 * vch.length)
  have hsmall := (base32_laws.encoder.groups vch).small
  have hencode : encodeBase32 vch = (encodeDigits encode32Step vch).map pbase32 := htext
  rw [hencode]
  refine ⟨by rw [List.length_map]; omega, fun c hc => ?_⟩
  obtain ⟨d, hd, rfl⟩ := List.mem_map.mp hc
  have hentry := (alphabet32.table_iff (pbase32 d) d).mpr
    ⟨hsmall d hd, alphabet32.fold_pbase d (hsmall d hd)⟩
  rw [hentry]
  rfl

theorem table_fold {c : UInt8} :
    tableEntry decode32Table (toLower c) = tableEntry decode32Table c := by
  have hall : ∀ c, tableEntry decode32Table (toLower c) = tableEntry decode32Table c :=
    forall_character (by decide +kernel)
  exact hall c

theorem zero_notMem_table {name : List UInt8}
    (h : ∀ c ∈ name, (tableEntry decode32Table c).isSome = true) : 0 ∉ name := fun hmem =>
  absurd (h 0 hmem) (by decide)

/-- A name is the base32 of its ten bytes, up to case, exactly when it is sixteen digits. -/
theorem name_eq_iff {name vch : List UInt8} (hvch : (decodeBase32 (cStr name)).1 = vch)
    (h : vch.length = 10) :
    name.map toLower = encodeBase32 vch ↔
      name.length = 16 ∧ ∀ c ∈ name, (tableEntry decode32Table c).isSome = true := by
  obtain ⟨hlength, hdigits⟩ := base32_length h
  constructor
  · intro heq
    refine ⟨by rw [← hlength, ← heq, List.length_map], fun c hc => ?_⟩
    rw [← table_fold]
    exact hdigits _ (heq ▸ List.mem_map_of_mem hc)
  · rintro ⟨hname, htable⟩
    rw [cStr_eq (zero_notMem_table htable)] at hvch
    obtain ⟨text, rest, digits, hsplit, htext, hsmall, hrest⟩ := exists_digits alphabet32 name
    -- every character is a digit
    obtain rfl : rest = [] := by
      cases rest with
      | nil => rfl
      | cons c rest =>
        have hsome := htable c (by rw [hsplit]; exact List.mem_append_right _ List.mem_cons_self)
        rw [hrest c rfl] at hsome
        cases hsome
    rw [List.append_nil] at hsplit
    subst hsplit
    have hwhole : (decodeBase32 name).2 = false := base32_laws.decodeText_whole htext hsmall (by
      show 5 * name.length = 8 * (decodeBase32 name).1.length
      rw [hvch, hname, h])
    obtain ⟨text, rest, hsplit, hfold, -⟩ :=
      (base32_laws.decodeText_valid_iff name vch).mp (Prod.ext hvch hwhole)
    have hcount := congrArg List.length hfold
    have hfold' : text.map toLower = encodeBase32 vch := hfold
    have htextLength : text.length = 16 := by rw [← hlength, ← hfold', List.length_map]
    obtain rfl : rest = [] := by
      have htotal := congrArg List.length hsplit
      rw [hname, List.length_append, htextLength] at htotal
      exact List.eq_nil_of_length_eq_zero (by omega)
    rw [hsplit, List.append_nil, hfold']

/-! ## Names of addresses -/

variable {env : NetEnv} {a : CNetAddr}

theorem not_i2p_of_tor (h : a.isTor = true) : a.isI2P = false := by
  have htor : a.ip.1.take 6 = pchOnionCat := of_decide_eq_true h
  refine decide_eq_false fun hi2p => ?_
  have hsame : pchOnionCat = pchGarliCat := htor.symm.trans hi2p
  exact absurd hsame (by decide)

theorem ip_of_tor (h : a.isTor = true) : a.ip.1 = pchOnionCat ++ a.ip.1.drop 6 := by
  have htor : a.ip.1.take 6 = pchOnionCat := of_decide_eq_true h
  rw [← htor, List.take_append_drop]

theorem isTor_of_ip {rest : List UInt8} (h : a.ip.1 = pchOnionCat ++ rest) : a.isTor = true := by
  refine decide_eq_true ?_
  rw [h, List.take_left' rfl]

theorem length_drop_ip (a : CNetAddr) : (a.ip.1.drop 6).length = 10 := by
  rw [List.length_drop, a.ip.2]

theorem toStringIP_tor (h : a.isTor = true) :
    a.toStringIP env = encodeBase32 (a.ip.1.drop 6) ++ onionSuffix := by
  rw [toStringIP, if_pos h, List.take_of_length_le (Nat.le_of_eq (length_drop_ip a))]

theorem toStringIP_i2p (h : a.isI2P = true) :
    a.toStringIP env = encodeBase32 (a.ip.1.drop 6) ++ i2pSuffix := by
  have htor : ¬ a.isTor = true := fun htor => by
    rw [not_i2p_of_tor htor] at h
    cases h
  rw [toStringIP, if_neg htor, if_pos h,
    List.take_of_length_le (Nat.le_of_eq (length_drop_ip a))]

theorem encodeBase32_ne_nil (a : CNetAddr) : encodeBase32 (a.ip.1.drop 6) ≠ [] := fun hnil => by
  have hlength := (base32_length (length_drop_ip a)).1
  rw [hnil] at hlength
  cases hlength

theorem decodeBase32_text (a : CNetAddr) :
    (decodeBase32 (cStr (encodeBase32 (a.ip.1.drop 6)))).1 = a.ip.1.drop 6 := by
  have htable := (base32_length (length_drop_ip a)).2
  have hread : decodeBase32 (encodeBase32 (a.ip.1.drop 6)) = (a.ip.1.drop 6, false) :=
    base32_laws.decodeText_encodeText _
  rw [cStr_eq (zero_notMem_table htable), hread]

/-- A Tor address is read back. -/
theorem setSpecial_tor (h : a.isTor = true) : setSpecial (a.toStringIP env) = some a := by
  rw [toStringIP_tor h, setSpecial_iff]
  refine ⟨_, encodeBase32_ne_nil a, .inl rfl, ?_⟩
  rw [decodeBase32_text]
  exact ip_of_tor h

/-- An I2P address is read as a Tor address. -/
theorem setSpecial_i2p (h : a.isI2P = true) :
    ∃ b, setSpecial (a.toStringIP env) = some b ∧ b.isTor = true ∧ b ≠ a := by
  have hsize : (pchOnionCat ++ a.ip.1.drop 6).length = 16 := by
    rw [List.length_append, length_drop_ip]
    rfl
  have htor : isTor ⟨pchOnionCat ++ a.ip.1.drop 6, hsize⟩ = true := isTor_of_ip rfl
  refine ⟨⟨pchOnionCat ++ a.ip.1.drop 6, hsize⟩, ?_, htor, ?_⟩
  · rw [toStringIP_i2p h, setSpecial_iff]
    refine ⟨_, encodeBase32_ne_nil a, .inr rfl, ?_⟩
    rw [decodeBase32_text]
  · intro hsame
    rw [hsame] at htor
    rw [not_i2p_of_tor htor] at h
    cases h

/-- Sixteen characters of base32, of either case, in front of `.onion`. -/
def IsOnionName (str : List UInt8) : Prop :=
  ∃ name, str = name ++ onionSuffix ∧ name.length = 16 ∧
    ∀ c ∈ name, (tableEntry decode32Table c).isSome = true

/-- The names that are the text of the address they give, up to case. -/
theorem setSpecial_text {str : List UInt8} (h : setSpecial str = some a) :
    str.map toLower = (a.toStringIP env).map toLower ↔ IsOnionName str := by
  obtain ⟨name, -, hstr, hip⟩ := (setSpecial_iff str a).mp h
  have hdrop : a.ip.1.drop 6 = (decodeBase32 (cStr name)).1 := by
    rw [hip]
    exact List.drop_left' rfl
  have hlength := length_drop_ip a
  have hlower : (encodeBase32 (a.ip.1.drop 6)).map toLower = encodeBase32 (a.ip.1.drop 6) :=
    base32_laws.map_fold_encodeText _
  rw [toStringIP_tor (isTor_of_ip hip), List.map_append, hlower, suffixes_lower.1]
  rcases hstr with rfl | rfl
  · rw [List.map_append, suffixes_lower.1, List.append_left_inj, name_eq_iff hdrop.symm hlength]
    constructor
    · exact fun hname => ⟨name, rfl, hname⟩
    · rintro ⟨name', hsame, hname⟩
      rwa [List.append_cancel_right hsame]
  · rw [List.map_append, suffixes_lower.2]
    constructor
    · exact fun hsame => absurd hsame.symm (onion_ne_i2p _ _)
    · rintro ⟨name', hsame, -⟩
      exact absurd hsame.symm (onion_ne_i2p _ _)

/-! ## Numeric names -/

/-- A character of a numeric name. -/
def isNumeric (c : UInt8) : Bool :=
  isDigit c || decide (97 ≤ c ∧ c ≤ 102) || decide (65 ≤ c ∧ c ≤ 70) || c == charColon || c == 46

theorem isNumeric_spec : ∀ c, isNumeric c = true → c ≠ 0 ∧ c ≠ charOpen ∧ c ≠ 110 ∧ c ≠ 112 :=
  forall_character (by decide +kernel)

/-- `getnameinfo` and `getaddrinfo` are inverse on the text of an address. -/
structure Names (env : NetEnv) (a : CNetAddr) : Prop where
  inverse : ∀ addr ∈ a.getSockAddr, ∃ name, env.getnameinfo addr = some name ∧ name ≠ [] ∧
    (∀ c ∈ name, isNumeric c = true) ∧ (a.isIPv4 = true → charColon ∉ name) ∧
      ∀ fAllowLookup, (env.getaddrinfo fAllowLookup name).head? = some addr

/-- The address that is left is one of IPv4 or IPv6. -/
theorem exists_sockAddr (htor : a.isTor = false) (hi2p : a.isI2P = false) :
    ∃ addr, a.getSockAddr = some addr ∧ ofSockAddr addr = a := by
  unfold getSockAddr
  by_cases hv4 : a.isIPv4 = true
  · have hprefix : a.ip.1.take 12 = pchIPv4 := of_decide_eq_true hv4
    rw [if_pos hv4]
    refine ⟨_, rfl, ext_ip ?_⟩
    show pchIPv4 ++ a.ip.1.drop 12 = a.ip.1
    rw [← hprefix, List.take_append_drop]
  · have hv6 : a.isIPv6 = true := by
      rw [isIPv6, htor, hi2p, Bool.eq_false_iff.mpr hv4]
      rfl
    rw [if_neg hv4, if_pos hv6]
    exact ⟨_, rfl, rfl⟩

/-- A numeric name is no special one. -/
theorem setSpecial_numeric {name : List UInt8} (h : ∀ c ∈ name, isNumeric c = true) :
    setSpecial name = none := by
  rw [Option.eq_none_iff_forall_ne_some]
  intro b hb
  obtain ⟨rest, -, rfl | rfl, -⟩ := (setSpecial_iff name b).mp hb
  · have hlast : (110 : UInt8) ∈ onionSuffix := by decide +kernel
    exact (isNumeric_spec 110 (h 110 (List.mem_append_right _ hlast))).2.2.1 rfl
  · have hlast : (112 : UInt8) ∈ i2pSuffix := by decide +kernel
    exact (isNumeric_spec 112 (h 112 (List.mem_append_right _ hlast))).2.2.2 rfl

end CNetAddr

/-! ## Texts of services -/

open CNetAddr

variable {env : NetEnv}

/-- What `SplitHostPort` and `LookupIntern` need of the text of an address. -/
structure Readable (env : NetEnv) (a : CNetAddr) : Prop where
  nonempty : a.toStringIP env ≠ []
  terminated : 0 ∉ a.toStringIP env
  unbracketed : (a.toStringIP env).getD 0 0 ≠ charOpen
  colon : a.isIPv4 = true ∨ a.isTor = true ∨ a.isI2P = true → charColon ∉ a.toStringIP env

theorem getD_zero_ne {str : List UInt8} {c : UInt8} (hne : str ≠ []) (h : c ∉ str) :
    str.getD 0 0 ≠ c := by
  cases str with
  | nil => exact absurd rfl hne
  | cons d str => exact fun heq => h (heq ▸ List.mem_cons_self)

/-- The text of base32 has none of the characters that separate. -/
theorem base32_separators (a : CNetAddr) {c : UInt8} (hc : c ∈ [0, charOpen, charColon]) :
    c ∉ encodeBase32 (a.ip.1.drop 6) ++ onionSuffix ∧
      c ∉ encodeBase32 (a.ip.1.drop 6) ++ i2pSuffix := by
  have htable := (base32_length (length_drop_ip a)).2
  have hnone : ∀ c ∈ [0, charOpen, charColon], (tableEntry decode32Table c).isSome = false ∧
      c ∉ onionSuffix ∧ c ∉ i2pSuffix := by decide +kernel
  obtain ⟨hentry, honion, hi2p⟩ := hnone c hc
  have hencode : c ∉ encodeBase32 (a.ip.1.drop 6) := fun hmem => by
    rw [htable c hmem] at hentry
    cases hentry
  rw [List.mem_append, List.mem_append]
  exact ⟨fun h => h.elim hencode honion, fun h => h.elim hencode hi2p⟩

theorem readable (a : CNetAddr) (h : Names env a) : Readable env a := by
  have hzero : (0 : UInt8) ∈ [0, charOpen, charColon] := by decide
  have hopen : charOpen ∈ [0, charOpen, charColon] := by decide
  have hcolon : charColon ∈ [0, charOpen, charColon] := by decide
  have hne (suffix : List UInt8) : encodeBase32 (a.ip.1.drop 6) ++ suffix ≠ [] := fun hnil =>
    encodeBase32_ne_nil a (List.append_eq_nil_iff.mp hnil).1
  by_cases htor : a.isTor = true
  · have htext : a.toStringIP env = _ := toStringIP_tor htor
    constructor <;> rw [htext]
    · exact hne _
    · exact (base32_separators a hzero).1
    · exact getD_zero_ne (hne _) (base32_separators a hopen).1
    · exact fun _ => (base32_separators a hcolon).1
  · by_cases hi2p : a.isI2P = true
    · have htext : a.toStringIP env = _ := toStringIP_i2p hi2p
      constructor <;> rw [htext]
      · exact hne _
      · exact (base32_separators a hzero).2
      · exact getD_zero_ne (hne _) (base32_separators a hopen).2
      · exact fun _ => (base32_separators a hcolon).2
    · obtain ⟨addr, haddr, -⟩ :=
        exists_sockAddr (Bool.eq_false_iff.mpr htor) (Bool.eq_false_iff.mpr hi2p)
      obtain ⟨name, hname, hnonempty, hnumeric, hv4, -⟩ := h.inverse addr haddr
      have htext : a.toStringIP env = name := by
        rw [toStringIP, if_neg htor, if_neg hi2p, haddr, Option.bind_some, hname]
      constructor <;> rw [htext]
      · exact hnonempty
      · exact fun hmem => (isNumeric_spec 0 (hnumeric 0 hmem)).1 rfl
      · exact getD_zero_ne hnonempty fun hmem =>
          (isNumeric_spec charOpen (hnumeric charOpen hmem)).2.1 rfl
      · rintro (hip | hip | hip)
        · exact hv4 hip
        · exact absurd hip htor
        · exact absurd hip hi2p

/-- The text and the port are told apart. -/
theorem splitHostPort_toStringIPPort (serv : CService) (h : Readable env serv.addr) :
    splitHostPort (serv.toStringIPPort env) 0 =
      ((serv.port.toNat : Int), serv.addr.toStringIP env) := by
  unfold CService.toStringIPPort CService.toStringPort splitHostPort
  split
  · next hplain =>
    rw [List.append_assoc, List.singleton_append, splitPort_port serv.port (.inl (h.colon hplain))]
    dsimp only
    rw [hostOf_plain h.unbracketed]
  · have hbrackets : [charOpen] ++ serv.addr.toStringIP env ++ [charClose, charColon] ++
        decimal serv.port.toNat = (charOpen :: (serv.addr.toStringIP env ++ [charClose])) ++
          charColon :: decimal serv.port.toNat := by simp
    have hlast : (charOpen :: (serv.addr.toStringIP env ++ [charClose])).getD
        ((charOpen :: (serv.addr.toStringIP env ++ [charClose])).length - 1) 0 = charClose := by
      simp [List.getD_eq_getElem?_getD]
    rw [hbrackets, splitPort_port serv.port (.inr ⟨rfl, hlast⟩)]
    dsimp only
    rw [hostOf_brackets]

/-- The text of an address is looked up as the address, unless it is one of I2P. -/
theorem lookupIntern_toStringIP {a : CNetAddr} (h : Names env a) (fAllowLookup : Bool) :
    ∃ b, lookupIntern env (a.toStringIP env) 1 fAllowLookup = some [b] ∧
      (b = a ↔ a.isI2P = false) := by
  unfold lookupIntern
  by_cases htor : a.isTor = true
  · refine ⟨a, by rw [setSpecial_tor htor], ?_⟩
    exact ⟨fun _ => not_i2p_of_tor htor, fun _ => rfl⟩
  · by_cases hi2p : a.isI2P = true
    · obtain ⟨b, hb, -, hne⟩ := @setSpecial_i2p env a hi2p
      refine ⟨b, by rw [hb], ?_⟩
      rw [hi2p]
      exact ⟨fun heq => absurd heq hne, nofun⟩
    · obtain ⟨addr, haddr, haddress⟩ :=
        exists_sockAddr (Bool.eq_false_iff.mpr htor) (Bool.eq_false_iff.mpr hi2p)
      obtain ⟨name, hname, -, hnumeric, -, hlookup⟩ := h.inverse addr haddr
      have htext : a.toStringIP env = name := by
        rw [toStringIP, if_neg htor, if_neg hi2p, haddr, Option.bind_some, hname]
      refine ⟨a, ?_, fun _ => Bool.eq_false_iff.mpr hi2p, fun _ => rfl⟩
      rw [htext, setSpecial_numeric hnumeric]
      obtain ⟨rest, hrest⟩ := List.head?_eq_some_iff.mp (hlookup fAllowLookup)
      dsimp only
      rw [hrest, List.map_cons, haddress, if_neg Nat.one_ne_zero, List.take_succ_cons,
        List.take_zero, if_neg (List.cons_ne_nil a [])]

/-- A printed service is parsed as itself, unless its address is one of I2P. -/
theorem ofString_toStringIPPort (serv : CService) (h : Names env serv.addr) (fAllowLookup : Bool) :
    CService.ofString env (serv.toStringIPPort env) 0 fAllowLookup = serv ↔
      serv.addr.isI2P = false := by
  have hread := readable serv.addr h
  have hsplit := splitHostPort_toStringIPPort serv hread
  obtain ⟨b, hlookup, hb⟩ := lookupIntern_toStringIP h fAllowLookup
  have hzero : 0 ∉ serv.toStringIPPort env := by
    unfold CService.toStringIPPort CService.toStringPort
    have hport := zero_notMem_decimal serv.port.toNat
    split <;> simp [hread.terminated, hport, charColon, charOpen, charClose]
  have hne : serv.toStringIPPort env ≠ [] := by
    unfold CService.toStringIPPort
    split <;> simp
  have hport : UInt16.ofNat (((serv.port.toNat : Int) % 2 ^ 16).toNat) = serv.port := by
    have hlt : serv.port.toNat < 2 ^ 16 := serv.port.toNat_lt
    have hnat : ((serv.port.toNat : Int) % 2 ^ 16).toNat = serv.port.toNat := by omega
    rw [hnat, UInt16.ofNat_toNat]
  unfold CService.ofString lookup
  rw [cStr_eq hzero, if_neg hne]
  dsimp only
  rw [hsplit]
  dsimp only
  rw [cStr_eq hread.terminated, hlookup, hport, ← hb]
  obtain ⟨addr, port⟩ := serv
  exact ⟨fun heq => congrArg CService.addr heq, fun heq => congrArg (CService.mk · port) heq⟩

/-- When the printed form of an address is read back, and when a name is the printed form. -/
theorem netBase_text (env : NetEnv) :
    (∀ a : CNetAddr, a.isTor = true ∨ a.isI2P = true →
      (setSpecial (a.toStringIP env) = some a ↔ a.isI2P = false)) ∧
    (∀ str a, setSpecial str = some a →
      (str.map toLower = (a.toStringIP env).map toLower ↔ IsOnionName str)) ∧
    ∀ serv : CService, Names env serv.addr →
      splitHostPort (serv.toStringIPPort env) 0 =
          ((serv.port.toNat : Int), serv.addr.toStringIP env) ∧
        ∀ fAllowLookup, CService.ofString env (serv.toStringIPPort env) 0 fAllowLookup = serv ↔
          serv.addr.isI2P = false := by
  refine ⟨?_, fun str a => setSpecial_text, fun serv h =>
    ⟨splitHostPort_toStringIPPort serv (readable serv.addr h), ofString_toStringIPPort serv h⟩⟩
  rintro a (htor | hi2p)
  · rw [not_i2p_of_tor htor]
    exact ⟨fun _ => rfl, fun _ => setSpecial_tor htor⟩
  · obtain ⟨b, hb, -, hne⟩ := @setSpecial_i2p env a hi2p
    rw [hb, hi2p]
    exact ⟨fun heq => absurd (Option.some.inj heq) hne, nofun⟩

def dnsName : List UInt8 := "8.8.8.8".toUTF8.toList

/-- The resolver for the address 8.8.8.8 and its text. -/
def dnsEnv : NetEnv where
  getnameinfo := fun _ => some dnsName
  getaddrinfo := fun _ _ => [.inet ⟨[8, 8, 8, 8], rfl⟩]

def dnsAddr : CNetAddr := ofSockAddr (.inet ⟨[8, 8, 8, 8], rfl⟩)

theorem netBase_text_dns :
    CService.ofString dnsEnv (CService.toStringIPPort dnsEnv ⟨dnsAddr, 53⟩) 0 false =
      ⟨dnsAddr, 53⟩ := by
  have haddr : dnsAddr.getSockAddr = some (.inet ⟨[8, 8, 8, 8], rfl⟩) := by decide
  have hnames : Names dnsEnv dnsAddr := by
    refine ⟨fun addr hmem => ⟨dnsName, rfl, by decide +kernel, by decide +kernel,
      fun _ => by decide +kernel, fun _ => ?_⟩⟩
    rw [haddr] at hmem
    exact hmem
  exact (((netBase_text dnsEnv).2.2 ⟨dnsAddr, 53⟩ hnames).2 false).mpr (by decide)

/-- An I2P address that is not read back, and a name with a stray character that is accepted. -/
theorem not_netBase_text :
    (¬ ∀ (env : NetEnv) (a : CNetAddr), a.isTor = true ∨ a.isI2P = true →
      setSpecial (a.toStringIP env) = some a) ∧
    ¬ ∀ (env : NetEnv) str a, setSpecial str = some a →
      str.map toLower = (a.toStringIP env).map toLower := by
  constructor
  · intro h
    have hi2p : isI2P ⟨pchGarliCat ++ List.replicate 10 0, rfl⟩ = true := by decide
    obtain ⟨b, hb, -, hne⟩ := @setSpecial_i2p dnsEnv _ hi2p
    exact hne (Option.some.inj (hb.symm.trans (h dnsEnv _ (.inr hi2p))))
  · intro h
    have hread : setSpecial (List.replicate 16 97 ++ 33 :: onionSuffix) =
        some ⟨pchOnionCat ++ List.replicate 10 0, rfl⟩ := by decide +kernel
    obtain ⟨name, hname, hlength, -⟩ := (setSpecial_text hread).mp (h dnsEnv _ _ hread)
    have hcount := congrArg List.length hname
    rw [List.length_append, List.length_cons, List.length_append, hlength] at hcount
    exact absurd hcount (by rw [length_onionSuffix]; decide)

end NoLimitCoin.NetBase
