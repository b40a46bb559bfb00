import NoLimitCoin.Encoding

/-!
# Alerts

`alert.cpp`: an alert is a message signed with the alert key.  `ProcessAlert` removes the alerts
that a new one cancels, or that have expired, and adds the new one unless one of those left
cancels it.  The identifier `maxInt` is reserved for the alert that says that the key is
compromised.

Results:
1. `AlertState.Inv`: no alert that is kept names another one, in any sequence of calls.
2. `step_kept_iff`: what a single call may hand over for a final alert to stay the last one.
3. `finalAlert_stays_iff`: the same for any sequence of calls.
-/

namespace NoLimitCoin

open Serializer

/-! ## Alerts -/

/-- A string literal, as `std::string` holds it. -/
def asciiBytes (s : String) : List UInt8 := s.toList.map fun c => UInt8.ofNat c.toNat

/-- `std::numeric_limits<int>::max()`. -/
def maxInt : Int := 2 ^ 31 - 1

/-- `PROTOCOL_VERSION`, and `FormatSubVersion(CLIENT_NAME, CLIENT_VERSION, ...)`. -/
def protocolVersion : Int := 60018

def clientSubVersion : List UInt8 := asciiBytes "/NoLimitCoin:4.0.2.1/"

structure CUnsignedAlert where
  nVersion : Int
  nRelayUntil : Int
  nExpiration : Int
  nID : Int
  nCancel : Int
  setCancel : Map Int Unit
  nMinVer : Int
  nMaxVer : Int
  setSubVer : Map (List UInt8) Unit
  nPriority : Int
  strComment : List UInt8
  strStatusBar : List UInt8
  strReserved : List UInt8

structure CAlert extends CUnsignedAlert where
  vchMsg : List UInt8
  vchSig : List UInt8

/-- What the alert code is given: the hash and the check of a signature with a key. -/
structure AlertEnv where
  fTestNet : Bool
  hash : List UInt8 → Uint256
  /-- `CKey::Verify` after `SetPubKey(ParseHex(...))`. -/
  verify : String → Uint256 → List UInt8 → Bool

/-- The key alerts are signed with, on the main network. -/
def pszMainKey : String :=
  "042fac10443cf03d2d5c84d9daa3c0116b1ddd5f0e71df2a53e463435ea73c05547761d2a1ed3150fa9ff3d9afab73cf8e5d94c01a6ebf00dcc8ac23d63bde6d51"

def pszTestKey : String :=
  "045be973a273582c267f8310816bc213c5bbfdf23a60f537c19e5ae4f1a8b34dc8e53e86cc798ee05ba5f7613569ce223785e0e1a5681f059b176c25aa99171b96"

def AlertEnv.pszKey (env : AlertEnv) : String := if env.fTestNet then pszTestKey else pszMainKey

namespace CUnsignedAlert

def stringSerializer : Serializer (List UInt8) := string .byte

/-- `IMPLEMENT_SERIALIZE` of `CUnsignedAlert`. -/
def serializer : Serializer CUnsignedAlert :=
  record (pair int32Type.serializer (pair int64Type.serializer (pair int64Type.serializer
    (pair int32Type.serializer (pair int32Type.serializer (pair (set int32Type.serializer)
      (pair int32Type.serializer (pair int32Type.serializer (pair (set stringSerializer)
        (pair int32Type.serializer (pair stringSerializer (pair stringSerializer
          stringSerializer))))))))))))
    (fun a => (a.nVersion, a.nRelayUntil, a.nExpiration, a.nID, a.nCancel, a.setCancel, a.nMinVer,
      a.nMaxVer, a.setSubVer, a.nPriority, a.strComment, a.strStatusBar, a.strReserved))
    (fun (nVersion, nRelayUntil, nExpiration, nID, nCancel, setCancel, nMinVer, nMaxVer, setSubVer,
        nPriority, strComment, strStatusBar, strReserved) =>
      ⟨nVersion, nRelayUntil, nExpiration, nID, nCancel, setCancel, nMinVer, nMaxVer, setSubVer,
        nPriority, strComment, strStatusBar, strReserved⟩)

/-- The numbers an alert cancels: up to `nCancel`, and those of `setCancel`. -/
def names (a : CUnsignedAlert) (nID : Int) : Bool :=
  decide (nID ≤ a.nCancel) || a.setCancel.contains nID

/-- The format of the alert that the key is compromised. -/
def isFinal (a : CUnsignedAlert) : Bool :=
  decide (a.nExpiration = maxInt) && decide (a.nCancel = maxInt - 1) && decide (a.nMinVer = 0) &&
    decide (a.nMaxVer = maxInt) && a.setSubVer.isEmpty && decide (a.nPriority = maxInt) &&
    decide (a.strStatusBar = asciiBytes "URGENT: Alert key compromised, upgrade required")

end CUnsignedAlert

namespace CAlert

variable (env : AlertEnv) (now : Int) (a : CAlert)

/-- `IMPLEMENT_SERIALIZE` of `CAlert`, for an object that is null before. -/
def getHash : Uint256 := env.hash a.vchMsg

/-- `IsInEffect`, at the adjusted time `now`. -/
def isInEffect : Bool := decide (now < a.nExpiration)

/-- `Cancels`. -/
def cancels (alert : CAlert) : Bool := a.isInEffect now && a.names alert.nID

/-- `AppliesTo`. -/
def appliesTo (nVersion : Int) (strSubVerIn : List UInt8) : Bool :=
  a.isInEffect now && decide (a.nMinVer ≤ nVersion) && decide (nVersion ≤ a.nMaxVer) &&
    (a.setSubVer.isEmpty || a.setSubVer.contains strSubVerIn)

/-- `AppliesToMe`. -/
def appliesToMe : Bool := a.appliesTo now protocolVersion clientSubVersion

/-- `CheckSignature`: the alert with the fields of its message, or `none` where the signature is
not good. -/
def checkSignature : Except Failure (Option CAlert) :=
  if env.verify env.pszKey (env.hash a.vchMsg) a.vchSig then
    match CUnsignedAlert.serializer.unserialize CDataStream.read ⟨a.vchMsg, 0⟩ with
    | .error e => .error e
    | .ok (unsigned, _) => .ok (some ⟨unsigned, a.vchMsg, a.vchSig⟩)
  else .ok none

end CAlert

/-! ## Processing -/

/-- `ChangeType`, for `NotifyAlertChanged`. -/
inductive ChangeType where
  | ctNew
  | ctDeleted
deriving Repr, DecidableEq

/-- The alerts that are kept, and what the user interface has been told. -/
structure AlertState where
  mapAlerts : Map Uint256 CAlert
  notified : List (Uint256 × ChangeType)

namespace AlertState

def empty : AlertState := ⟨∅, []⟩

/-- The first loop of `ProcessAlert`, for one entry: erased where the new alert cancels it or it
has expired. -/
def cancelItem (now : Int) (alert : CAlert) (s : AlertState) (item : Uint256 × CAlert) :
    AlertState :=
  if alert.cancels now item.2 || !item.2.isInEffect now then
    ⟨s.mapAlerts.erase item.1, s.notified ++ [(item.1, .ctDeleted)]⟩
  else s

def cancelPrevious (now : Int) (alert : CAlert) (s : AlertState) : AlertState :=
  s.mapAlerts.toList.foldl (cancelItem now alert) s

/-- The end of `ProcessAlert`; an entry with the same hash stays. -/
def add (env : AlertEnv) (now : Int) (alert : CAlert) (s : AlertState) : AlertState where
  mapAlerts := s.mapAlerts.insertIfNew (alert.getHash env) alert
  notified :=
    if alert.appliesToMe now then s.notified ++ [(alert.getHash env, .ctNew)] else s.notified

/-- `ProcessAlert`, with one reading of the clock. -/
def processAlert (env : AlertEnv) (now : Int) (alert : CAlert) (s : AlertState) :
    Except Failure Bool × AlertState :=
  match alert.checkSignature env with
  | .error e => (.error e, s)
  | .ok none => (.ok false, s)
  | .ok (some alert) =>
    if !alert.isInEffect now then (.ok false, s)
    else if alert.nID = maxInt && !alert.isFinal then (.ok false, s)
    else
      let s := s.cancelPrevious now alert
      if s.mapAlerts.toList.any fun item => item.2.cancels now alert then (.ok false, s)
      else (.ok true, s.add env now alert)

end AlertState

/-! ## Reading a message -/

section reading

variable {α β σ : Type} {read : StreamRead σ}

theorem pair_unserialize_eq_ok {K : Serializer α} {T : Serializer β} {s s' : σ} {item : α × β}
    (h : (pair K T).unserialize read s = .ok (item, s')) :
    ∃ s₁, K.unserialize read s = .ok (item.1, s₁) ∧ T.unserialize read s₁ = .ok (item.2, s') := by
  obtain ⟨first, s₁, hfirst, h⟩ := reader_bind_eq_ok.mp h
  obtain ⟨second, s₂, hsecond, h⟩ := reader_bind_eq_ok.mp h
  cases h
  exact ⟨s₁, hfirst, hsecond⟩

theorem record_unserialize_eq_ok {S : Serializer β} {members : α → β} {make : β → α} {s s' : σ}
    {a : α} (h : (record S members make).unserialize read s = .ok (a, s')) :
    ∃ b, S.unserialize read s = .ok (b, s') ∧ a = make b :=
  reader_map_eq_ok.mp h

theorem int32_ofBytes_le (bytes : List UInt8) : int32Type.ofBytes bytes ≤ maxInt := by
  have hlt : Int.bmod (leNat bytes) 4294967296 < ((4294967296 : Nat) + 1) / 2 :=
    Int.bmod_lt (by decide)
  have hmax : ((4294967296 : Nat) + 1 : Int) / 2 = maxInt + 1 := by decide
  rw [hmax] at hlt
  simp only [int32Type, Flat.signed, Nat.reduceMul, Nat.reducePow]
  exact Int.lt_add_one_iff.mp hlt

theorem int32_unserialize_le {s s' : σ} {n : Int}
    (h : int32Type.serializer.unserialize read s = .ok (n, s')) : n ≤ maxInt := by
  obtain ⟨bytes, -, hn⟩ := reader_map_eq_ok.mp h
  rw [hn]
  exact int32_ofBytes_le bytes

theorem nID_le {s s' : σ} {a : CUnsignedAlert}
    (h : CUnsignedAlert.serializer.unserialize read s = .ok (a, s')) : a.nID ≤ maxInt := by
  obtain ⟨b, hread, rfl⟩ := record_unserialize_eq_ok h
  obtain ⟨_, -, hread⟩ := pair_unserialize_eq_ok hread
  obtain ⟨_, -, hread⟩ := pair_unserialize_eq_ok hread
  obtain ⟨_, -, hread⟩ := pair_unserialize_eq_ok hread
  obtain ⟨_, hnID, -⟩ := pair_unserialize_eq_ok hread
  exact int32_unserialize_le hnID

end reading

namespace CAlert

/-- The fields of an alert are those of its message. -/
def Parsed (a : CAlert) : Prop :=
  ∃ rest, CUnsignedAlert.serializer.unserialize CDataStream.read ⟨a.vchMsg, 0⟩ =
    .ok (a.toCUnsignedAlert, rest)

theorem Parsed.nID_le {a : CAlert} (h : a.Parsed) : a.nID ≤ maxInt := by
  obtain ⟨rest, h⟩ := h
  exact NoLimitCoin.nID_le h

theorem Parsed.eq_of_vchMsg {a b : CAlert} (ha : a.Parsed) (hb : b.Parsed)
    (h : a.vchMsg = b.vchMsg) : a.toCUnsignedAlert = b.toCUnsignedAlert := by
  obtain ⟨rest, ha⟩ := ha
  obtain ⟨rest', hb⟩ := hb
  rw [h, hb] at ha
  exact (congrArg Prod.fst (Except.ok.inj ha)).symm

theorem getHash_congr (env : AlertEnv) {a b : CAlert} (h : a.vchMsg = b.vchMsg) :
    a.getHash env = b.getHash env := congrArg env.hash h

theorem checkSignature_eq_some {env : AlertEnv} {a b : CAlert}
    (h : a.checkSignature env = .ok (some b)) : b.Parsed ∧ b.vchMsg = a.vchMsg := by
  unfold checkSignature at h
  split at h
  · split at h
    · cases h
    · next unsigned rest hread =>
      cases h
      exact ⟨⟨rest, hread⟩, rfl⟩
  · cases h

/-- An alert passes the first checks of `ProcessAlert`: it is in effect, and where it has the
reserved identifier it has the format. -/
def passes (now : Int) (a : CAlert) : Bool :=
  a.isInEffect now && (decide (a.nID ≠ maxInt) || a.isFinal)

end CAlert

namespace AlertState

variable {env : AlertEnv} {now : Int} {alert a b : CAlert} {s : AlertState}

/-! ## One call -/

/-- A call that ends before the loops changes nothing. -/
theorem processAlert_refused (h : ∀ b, alert.checkSignature env = .ok (some b) →
    b.passes now = false) :
    (processAlert env now alert s).1 ≠ .ok true ∧ (processAlert env now alert s).2 = s := by
  unfold processAlert
  split
  · simp
  · simp
  · next b hcheck =>
    have hpasses := h b hcheck
    have hends : b.isInEffect now = false ∨ (b.nID = maxInt ∧ b.isFinal = false) := by
      simpa [CAlert.passes, imp_iff_not_or] using hpasses
    rcases hends with heffect | ⟨hmax, hformat⟩
    · simp [heffect]
    · cases heffect : b.isInEffect now with
      | false => simp
      | true => simp [hmax, hformat]

/-- A call that reaches the loops. -/
theorem processAlert_eq (hcheck : alert.checkSignature env = .ok (some b))
    (hpasses : b.passes now = true) :
    processAlert env now alert s =
      if (s.cancelPrevious now b).mapAlerts.toList.any fun item => item.2.cancels now b then
        (.ok false, s.cancelPrevious now b)
      else (.ok true, (s.cancelPrevious now b).add env now b) := by
  obtain ⟨heffect, hformat⟩ := Bool.and_eq_true_iff.mp hpasses
  have hformat' : ¬ (b.nID = maxInt && !b.isFinal) = true := by
    simpa [imp_iff_not_or] using hformat
  unfold processAlert
  rw [hcheck]
  simp only [heffect, Bool.not_true, Bool.false_eq_true, if_false, if_neg hformat']

theorem foldl_cancelItem_eq_some {l : List (Uint256 × CAlert)} {s : AlertState} {h : Uint256} :
    (l.foldl (cancelItem now b) s).mapAlerts[h]? = some a ↔ s.mapAlerts[h]? = some a ∧
      ∀ item ∈ l, item.1 = h → b.cancels now item.2 = false ∧ item.2.isInEffect now = true := by
  induction l generalizing s with
  | nil => simp
  | cons item l ih =>
    rw [List.foldl_cons, ih, List.forall_mem_cons, ← and_assoc]
    refine and_congr_left fun _ => ?_
    unfold cancelItem
    split
    · next hgone =>
      rw [Map.getElem?_erase]
      rcases eq_or_ne item.1 h with heq | hne
      · have hstays : ¬ (b.cancels now item.2 = false ∧ item.2.isInEffect now = true) := by
          rintro ⟨hcancels, heffect⟩
          simp [hcancels, heffect] at hgone
        simp [heq, hstays]
      · simp [hne]
    · next hstays =>
      have hstays : b.cancels now item.2 = false ∧ item.2.isInEffect now = true := by
        simpa using hstays
      simp [hstays]

/-- The entries that are left are those in effect that the new alert does not name. -/
theorem cancelPrevious_eq_some {h : Uint256} :
    (s.cancelPrevious now b).mapAlerts[h]? = some a ↔
      s.mapAlerts[h]? = some a ∧ b.cancels now a = false ∧ a.isInEffect now = true := by
  unfold cancelPrevious
  rw [foldl_cancelItem_eq_some]
  refine and_congr_right fun hget => ⟨fun hall => ?_, fun hstays item hmem heq => ?_⟩
  · exact hall (h, a) ((Map.mem_toList _ _ _).mpr hget) rfl
  · have hitem := (Map.mem_toList _ _ _).mp (show (item.1, item.2) ∈ s.mapAlerts.toList from hmem)
    rw [heq, hget] at hitem
    rw [← Option.some.inj hitem]
    exact hstays

theorem add_getElem? {h : Uint256} : (s.add env now b).mapAlerts[h]? =
    if b.getHash env = h ∧ s.mapAlerts[h]? = none then some b else s.mapAlerts[h]? := by
  show (s.mapAlerts.insertIfNew (b.getHash env) b)[h]? = _
  rw [Std.ExtTreeMap.getElem?_insertIfNew]
  rcases eq_or_ne (b.getHash env) h with heq | hne
  · subst heq
    simp
  · simp [hne]

theorem any_cancels_eq_false {s : AlertState} :
    (s.mapAlerts.toList.any fun item => item.2.cancels now b) = false ↔
      ∀ (h : Uint256) (a : CAlert), s.mapAlerts[h]? = some a → a.cancels now b = false := by
  rw [List.any_eq_false]
  constructor
  · intro hall h a hget
    simpa using hall (h, a) ((Map.mem_toList _ _ _).mpr hget)
  · intro hall item hmem
    simpa using hall item.1 item.2 ((Map.mem_toList _ _ _).mp hmem)

/-! ## No alert names another -/

/-- Every entry is under its hash and has the fields of its message, and no entry names the
number of another. -/
structure Inv (env : AlertEnv) (s : AlertState) : Prop where
  hash : ∀ (h : Uint256) (a : CAlert), s.mapAlerts[h]? = some a → h = a.getHash env
  parsed : ∀ (h : Uint256) (a : CAlert), s.mapAlerts[h]? = some a → a.Parsed
  apart : ∀ (h₁ h₂ : Uint256) (a₁ a₂ : CAlert), s.mapAlerts[h₁]? = some a₁ →
    s.mapAlerts[h₂]? = some a₂ → h₁ ≠ h₂ → a₁.names a₂.nID = false

theorem Inv.empty (env : AlertEnv) : Inv env .empty where
  hash h a hget := by simp [AlertState.empty] at hget
  parsed h a hget := by simp [AlertState.empty] at hget
  apart h₁ h₂ a₁ a₂ hget := by simp [AlertState.empty] at hget

theorem Inv.of_le {t : AlertState} (hinv : Inv env s)
    (hle : ∀ (h : Uint256) (a : CAlert), t.mapAlerts[h]? = some a → s.mapAlerts[h]? = some a) : Inv env t where
  hash h a hget := hinv.hash h a (hle h a hget)
  parsed h a hget := hinv.parsed h a (hle h a hget)
  apart h₁ h₂ a₁ a₂ hget₁ hget₂ := hinv.apart h₁ h₂ a₁ a₂ (hle _ _ hget₁) (hle _ _ hget₂)

theorem Inv.cancelPrevious (hinv : Inv env s) : Inv env (s.cancelPrevious now b) :=
  hinv.of_le fun _ _ hget => (cancelPrevious_eq_some.mp hget).1

theorem add_eq_some {h : Uint256} (hget : (s.add env now b).mapAlerts[h]? = some a) :
    (h = b.getHash env ∧ a = b) ∨ s.mapAlerts[h]? = some a := by
  rw [add_getElem?] at hget
  split at hget
  · next hnew => exact .inl ⟨hnew.1.symm, (Option.some.inj hget).symm⟩
  · exact .inr hget

theorem Inv.add (hinv : Inv env s) (hb : b.Parsed)
    (hapart : ∀ (h : Uint256) (a : CAlert), s.mapAlerts[h]? = some a →
      b.names a.nID = false ∧ a.names b.nID = false) :
    Inv env (s.add env now b) where
  hash h a hget := by
    rcases add_eq_some hget with ⟨rfl, rfl⟩ | hget
    · rfl
    · exact hinv.hash h a hget
  parsed h a hget := by
    rcases add_eq_some hget with ⟨rfl, rfl⟩ | hget
    · exact hb
    · exact hinv.parsed h a hget
  apart h₁ h₂ a₁ a₂ hget₁ hget₂ hne := by
    rcases add_eq_some hget₁ with ⟨heq₁, rfl⟩ | hold₁
    · rcases add_eq_some hget₂ with ⟨heq₂, rfl⟩ | hold₂
      · exact absurd (heq₁.trans heq₂.symm) hne
      · exact (hapart h₂ a₂ hold₂).1
    · rcases add_eq_some hget₂ with ⟨-, rfl⟩ | hold₂
      · exact (hapart h₁ a₁ hold₁).2
      · exact hinv.apart h₁ h₂ a₁ a₂ hold₁ hold₂ hne

/-- What is left after the first loop and does not cancel the new alert is apart from it. -/
theorem cancelPrevious_apart (hpasses : b.passes now = true)
    (hnone : ∀ (h : Uint256) (a : CAlert), (s.cancelPrevious now b).mapAlerts[h]? = some a →
      a.cancels now b = false) (h : Uint256) (a : CAlert)
    (hget : (s.cancelPrevious now b).mapAlerts[h]? = some a) :
    b.names a.nID = false ∧ a.names b.nID = false := by
  obtain ⟨hb, -⟩ := Bool.and_eq_true_iff.mp hpasses
  obtain ⟨-, hcancels, ha⟩ := cancelPrevious_eq_some.mp hget
  have hcancelled := hnone h a hget
  unfold CAlert.cancels at hcancels hcancelled
  rw [hb, Bool.true_and] at hcancels
  rw [ha, Bool.true_and] at hcancelled
  exact ⟨hcancels, hcancelled⟩

theorem Inv.processAlert (hinv : Inv env s) (now : Int) (alert : CAlert) :
    Inv env (processAlert env now alert s).2 := by
  by_cases hheard : ∃ b, alert.checkSignature env = .ok (some b) ∧ b.passes now = true
  · obtain ⟨b, hcheck, hpasses⟩ := hheard
    rw [processAlert_eq hcheck hpasses]
    split
    · exact hinv.cancelPrevious
    · next hnone =>
      have hnone := any_cancels_eq_false.mp (Bool.eq_false_iff.mpr hnone)
      exact hinv.cancelPrevious.add (CAlert.checkSignature_eq_some hcheck).1
        (cancelPrevious_apart hpasses hnone)
  · have hrefused := (@processAlert_refused env now alert s fun b hcheck =>
      Bool.eq_false_iff.mpr fun hpasses => hheard ⟨b, hcheck, hpasses⟩).2
    rw [hrefused]
    exact hinv

/-! ## The final alert -/

/-- An alert that `ProcessAlert` has let through under the reserved identifier. -/
structure Final (F : CAlert) : Prop where
  parsed : F.Parsed
  nID : F.nID = maxInt
  format : F.isFinal = true

/-- The alert, or one with the same message, is in the map. -/
def Kept (env : AlertEnv) (F : CAlert) (s : AlertState) : Prop :=
  ∃ G, s.mapAlerts[F.getHash env]? = some G ∧ G.vchMsg = F.vchMsg

/-- What a call may hand over: the clock has not run out, and an alert that passes the first
checks is the final one itself, or names no final alert and is none that the final one leaves
alone. -/
def Meets (env : AlertEnv) (F : CAlert) (now : Int) (alert : CAlert) : Prop :=
  now < maxInt ∧ ∀ b, alert.checkSignature env = .ok (some b) → b.passes now = true →
    b.vchMsg = F.vchMsg ∨
      (b.names maxInt = false ∧ (b.nID ≠ maxInt ∨ F.setCancel.contains maxInt = true))

section final

variable {F : CAlert}

theorem Final.nExpiration (hF : Final F) : F.nExpiration = maxInt := by
  have hformat := hF.format
  simp only [CUnsignedAlert.isFinal, Bool.and_eq_true, decide_eq_true_eq] at hformat
  exact hformat.1.1.1.1.1.1

theorem Final.nCancel (hF : Final F) : F.nCancel = maxInt - 1 := by
  have hformat := hF.format
  simp only [CUnsignedAlert.isFinal, Bool.and_eq_true, decide_eq_true_eq] at hformat
  exact hformat.1.1.1.1.1.2

theorem Final.isInEffect_iff (hF : Final F) : F.isInEffect now = true ↔ now < maxInt := by
  rw [CAlert.isInEffect, hF.nExpiration, decide_eq_true_eq]

/-- A final alert names every other identifier, and its own only through `setCancel`. -/
theorem Final.names_iff (hF : Final F) {nID : Int} (hle : nID ≤ maxInt) :
    F.names nID = true ↔ nID ≠ maxInt ∨ F.setCancel.contains maxInt = true := by
  rw [CUnsignedAlert.names, hF.nCancel, Bool.or_eq_true, decide_eq_true_eq]
  rcases eq_or_ne nID maxInt with rfl | hne
  · have hnot : ¬ maxInt ≤ maxInt - 1 := by omega
    simp [hnot]
  · have hlt : nID ≤ maxInt - 1 := by omega
    simp [hlt, hne]

/-- An entry that is kept for the final alert has its fields. -/
theorem Inv.fields_eq (hinv : Inv env s) (hF : Final F) {G : CAlert}
    (hget : s.mapAlerts[F.getHash env]? = some G) (hmsg : G.vchMsg = F.vchMsg) :
    G.toCUnsignedAlert = F.toCUnsignedAlert :=
  (hinv.parsed _ _ hget).eq_of_vchMsg hF.parsed hmsg

theorem Inv.final_of_kept (hinv : Inv env s) (hF : Final F) {G : CAlert}
    (hget : s.mapAlerts[F.getHash env]? = some G) (hmsg : G.vchMsg = F.vchMsg) : Final G where
  parsed := hinv.parsed _ _ hget
  nID := by rw [hinv.fields_eq hF hget hmsg]; exact hF.nID
  format := by rw [hinv.fields_eq hF hget hmsg]; exact hF.format

/-- While the final alert is in the map, no other entry names its identifier. -/
theorem Inv.names_maxInt (hinv : Inv env s) (hF : Final F) (hkept : Kept env F s) {h : Uint256}
    (hget : s.mapAlerts[h]? = some a) (hne : h ≠ F.getHash env) : a.names maxInt = false := by
  obtain ⟨G, hG, hmsg⟩ := hkept
  have hapart := hinv.apart h (F.getHash env) a G hget hG hne
  rwa [(hinv.final_of_kept hF hG hmsg).nID] at hapart

/-- A call finds the final alert in effect, leaves it in the map and accepts no other. -/
def Obeys (env : AlertEnv) (F : CAlert) (now : Int) (alert : CAlert) (s : AlertState) : Prop :=
  F.isInEffect now = true ∧
    ((processAlert env now alert s).1 = .ok true → alert.vchMsg = F.vchMsg) ∧
    Kept env F (processAlert env now alert s).2

theorem Kept.add {t : AlertState} (h : Kept env F t) : Kept env F (t.add env now b) := by
  obtain ⟨G, hG, hmsg⟩ := h
  refine ⟨G, ?_, hmsg⟩
  rw [add_getElem?, if_neg (by simp [hG])]
  exact hG

/-- An alert that names the reserved identifier and is not the final one takes its place. -/
theorem not_obeys_of_names (hinv : Inv env s) (hF : Final F) (hkept : Kept env F s)
    (hcheck : alert.checkSignature env = .ok (some b)) (hpasses : b.passes now = true)
    (hother : b.vchMsg ≠ F.vchMsg) (hnames : b.names maxInt = true) :
    ¬ Kept env F (processAlert env now alert s).2 := by
  have heffect := (Bool.and_eq_true_iff.mp hpasses).1
  have herased : ∀ G, (s.cancelPrevious now b).mapAlerts[F.getHash env]? ≠ some G := by
    intro G hG
    obtain ⟨hG, hcancels, -⟩ := cancelPrevious_eq_some.mp hG
    obtain ⟨G', hG', hmsg⟩ := hkept
    obtain rfl := Option.some.inj (hG.symm.trans hG')
    rw [CAlert.cancels, heffect, (hinv.final_of_kept hF hG hmsg).nID, hnames] at hcancels
    exact Bool.noConfusion hcancels
  rw [processAlert_eq hcheck hpasses]
  split
  · rintro ⟨G, hG, -⟩
    exact herased G hG
  · rintro ⟨G, hG, hmsg⟩
    rcases add_eq_some hG with ⟨-, rfl⟩ | hG
    · exact hother hmsg
    · exact herased G hG

/-- Nothing but the final alert could keep another one with its identifier away. -/
theorem accepts_maxInt (hinv : Inv env s) (hF : Final F) (hkept : Kept env F s)
    (hcheck : alert.checkSignature env = .ok (some b)) (hpasses : b.passes now = true)
    (hmax : b.nID = maxInt)
    (hfinal : ∀ G, (s.cancelPrevious now b).mapAlerts[F.getHash env]? = some G →
      G.names maxInt = false) :
    processAlert env now alert s = (.ok true, (s.cancelPrevious now b).add env now b) := by
  rw [processAlert_eq hcheck hpasses, if_neg]
  rw [Bool.not_eq_true, any_cancels_eq_false]
  intro h a hget
  rw [CAlert.cancels, hmax, Bool.and_eq_false_iff]
  right
  rcases eq_or_ne h (F.getHash env) with rfl | hne
  · exact hfinal a hget
  · exact hinv.names_maxInt hF hkept (cancelPrevious_eq_some.mp hget).1 hne

/-- The final alert handed over once more. -/
theorem kept_again (hinv : Inv env s) (hF : Final F) (hkept : Kept env F s)
    (hcheck : alert.checkSignature env = .ok (some b)) (hpasses : b.passes now = true)
    (hsame : b.vchMsg = F.vchMsg) : Kept env F (processAlert env now alert s).2 := by
  have hfields := (CAlert.checkSignature_eq_some hcheck).1.eq_of_vchMsg hF.parsed hsame
  have hhash := CAlert.getHash_congr env hsame
  have hmax : b.nID = maxInt := by rw [hfields, hF.nID]
  cases hget : (s.cancelPrevious now b).mapAlerts[F.getHash env]? with
  | none =>
    rw [accepts_maxInt hinv hF hkept hcheck hpasses hmax fun G hG => by rw [hget] at hG; cases hG]
    refine ⟨b, ?_, hsame⟩
    rw [add_getElem?, if_pos ⟨hhash, hget⟩]
  | some G =>
    have hG : Kept env F (s.cancelPrevious now b) := by
      obtain ⟨G', hG', hmsg⟩ := hkept
      obtain rfl := Option.some.inj ((cancelPrevious_eq_some.mp hget).1.symm.trans hG')
      exact ⟨_, hget, hmsg⟩
    rw [processAlert_eq hcheck hpasses]
    split
    · exact hG
    · exact hG.add

/-- An alert that the final one names, and that does not name it, is refused. -/
theorem refused_by_final (hinv : Inv env s) (hF : Final F) (hkept : Kept env F s)
    (hnow : now < maxInt) (hcheck : alert.checkSignature env = .ok (some b))
    (hpasses : b.passes now = true) (hnames : b.names maxInt = false)
    (hnamed : b.nID ≠ maxInt ∨ F.setCancel.contains maxInt = true) :
    processAlert env now alert s = (.ok false, s.cancelPrevious now b) ∧
      Kept env F (s.cancelPrevious now b) := by
  obtain ⟨G, hG, hmsg⟩ := hkept
  have hfinal := hinv.final_of_kept hF hG hmsg
  have hfields := hinv.fields_eq hF hG hmsg
  have heffect : G.isInEffect now = true := hfinal.isInEffect_iff.mpr hnow
  have hstays : (s.cancelPrevious now b).mapAlerts[F.getHash env]? = some G := by
    refine cancelPrevious_eq_some.mpr ⟨hG, ?_, heffect⟩
    rw [CAlert.cancels, hfinal.nID, hnames, Bool.and_false]
  have hcancels : G.cancels now b = true := by
    rw [CAlert.cancels, heffect, Bool.true_and, hfields]
    exact (hF.names_iff (CAlert.checkSignature_eq_some hcheck).1.nID_le).mpr hnamed
  have hany : ((s.cancelPrevious now b).mapAlerts.toList.any fun item => item.2.cancels now b) =
      true := List.any_eq_true.mpr ⟨_, (Map.mem_toList _ _ _).mpr hstays, hcancels⟩
  exact ⟨by rw [processAlert_eq hcheck hpasses, if_pos hany], G, hstays, hmsg⟩

/-- The step: exactly such calls leave the final alert the last one. -/
theorem obeys_iff (hinv : Inv env s) (hF : Final F) (hkept : Kept env F s) :
    Obeys env F now alert s ↔ Meets env F now alert := by
  constructor
  · rintro ⟨heffect, haccepted, hafter⟩
    refine ⟨hF.isInEffect_iff.mp heffect, fun b hcheck hpasses => ?_⟩
    have hmsg := (CAlert.checkSignature_eq_some hcheck).2
    refine or_iff_not_imp_left.mpr fun hother => ?_
    have hnames : b.names maxInt = false := by
      by_contra hnames
      exact not_obeys_of_names hinv hF hkept hcheck hpasses hother
        (Bool.eq_true_of_not_eq_false hnames) hafter
    refine ⟨hnames, or_iff_not_imp_left.mpr fun hmax => ?_⟩
    by_contra hset
    have hfinal : F.names maxInt = false := by
      rw [← Bool.not_eq_true, hF.names_iff le_rfl]
      simpa using hset
    have hrun := accepts_maxInt hinv hF hkept hcheck hpasses (not_not.mp hmax) fun G hG => by
      obtain ⟨G', hG', hmsg'⟩ := hkept
      obtain rfl := Option.some.inj ((cancelPrevious_eq_some.mp hG).1.symm.trans hG')
      rw [hinv.fields_eq hF hG' hmsg']
      exact hfinal
    exact hother (hmsg.trans (haccepted (by rw [hrun])))
  · rintro ⟨hnow, hmeets⟩
    refine ⟨hF.isInEffect_iff.mpr hnow, ?_⟩
    by_cases hheard : ∃ b, alert.checkSignature env = .ok (some b) ∧ b.passes now = true
    · obtain ⟨b, hcheck, hpasses⟩ := hheard
      have hmsg := (CAlert.checkSignature_eq_some hcheck).2
      rcases hmeets b hcheck hpasses with hsame | ⟨hnames, hnamed⟩
      · exact ⟨fun _ => hmsg.symm.trans hsame, kept_again hinv hF hkept hcheck hpasses hsame⟩
      · obtain ⟨hrun, hafter⟩ :=
          refused_by_final hinv hF hkept hnow hcheck hpasses hnames hnamed
        rw [hrun]
        exact ⟨fun h => Bool.noConfusion (Except.ok.inj h), hafter⟩
    · obtain ⟨hnot, hsame⟩ := @processAlert_refused env now alert s fun b hcheck =>
        Bool.eq_false_iff.mpr fun hpasses => hheard ⟨b, hcheck, hpasses⟩
      rw [hsame]
      exact ⟨fun h => absurd h hnot, hkept⟩

/-- The call that hands over the final alert itself. -/
theorem kept_accepted_iff (hcheck : alert.checkSignature env = .ok (some F))
    (hpasses : F.passes now = true) (haccepted : (processAlert env now alert s).1 = .ok true) :
    Kept env F (processAlert env now alert s).2 ↔
      ∀ G, s.mapAlerts[F.getHash env]? = some G → F.cancels now G = false →
        G.isInEffect now = true → G.vchMsg = F.vchMsg := by
  have hrun : (processAlert env now alert s).2 = (s.cancelPrevious now F).add env now F := by
    rw [processAlert_eq hcheck hpasses] at haccepted ⊢
    split at haccepted
    · exact Bool.noConfusion (Except.ok.inj haccepted)
    · next hnone => rw [if_neg hnone]
  rw [hrun]
  constructor
  · rintro ⟨G', hG', hmsg⟩ G hG hcancels heffect
    have hstays := cancelPrevious_eq_some.mpr ⟨hG, hcancels, heffect⟩
    rw [add_getElem?, if_neg (by simp [hstays]), hstays] at hG'
    rwa [Option.some.inj hG']
  · intro hfresh
    cases hget : (s.cancelPrevious now F).mapAlerts[F.getHash env]? with
    | none => exact ⟨F, by rw [add_getElem?, if_pos ⟨rfl, hget⟩], rfl⟩
    | some G =>
      obtain ⟨hG, hcancels, heffect⟩ := cancelPrevious_eq_some.mp hget
      exact Kept.add ⟨G, hget, hfresh G hG hcancels heffect⟩

theorem final_of_accepted (hcheck : alert.checkSignature env = .ok (some F))
    (hmax : F.nID = maxInt) (haccepted : (processAlert env now alert s).1 = .ok true) :
    F.passes now = true ∧ Final F := by
  have hpasses : F.passes now = true := by
    by_contra hnot
    refine (processAlert_refused fun b hb => ?_).1 haccepted
    obtain rfl := Option.some.inj (Except.ok.inj (hcheck.symm.trans hb))
    exact Bool.eq_false_iff.mpr hnot
  refine ⟨hpasses, (CAlert.checkSignature_eq_some hcheck).1, hmax, ?_⟩
  simpa [hmax] using (Bool.and_eq_true_iff.mp hpasses).2

end final

/-! ## Runs -/

/-- A call of `ProcessAlert`: the clock, and the alert that is handed over. -/
structure Call where
  now : Int
  alert : CAlert

/-- A call after the others. -/
def call (env : AlertEnv) (s : AlertState) (c : Call) : AlertState :=
  (processAlert env c.now c.alert s).2

def run (env : AlertEnv) (calls : List Call) : AlertState := calls.foldl (call env) .empty

theorem foldl_call_inv (hinv : Inv env s) (calls : List Call) :
    Inv env (calls.foldl (call env) s) := by
  induction calls generalizing s with
  | nil => exact hinv
  | cons c calls ih => exact ih (hinv.processAlert c.now c.alert)

theorem run_inv (env : AlertEnv) (calls : List Call) : Inv env (run env calls) :=
  foldl_call_inv (Inv.empty env) calls

/-- No entry is cancelled by another one, whatever the time. -/
def Unchallenged (s : AlertState) : Prop :=
  ∀ (now : Int) (h₁ h₂ : Uint256) (a₁ a₂ : CAlert), s.mapAlerts[h₁]? = some a₁ →
    s.mapAlerts[h₂]? = some a₂ → h₁ ≠ h₂ → a₁.cancels now a₂ = false

theorem Inv.unchallenged (hinv : Inv env s) : Unchallenged s := by
  intro now h₁ h₂ a₁ a₂ hget₁ hget₂ hne
  rw [CAlert.cancels, hinv.apart h₁ h₂ a₁ a₂ hget₁ hget₂ hne, Bool.and_false]

/-- Every call of a list finds the final alert in effect, leaves it in the map and accepts no
other. -/
def ObeysAll (env : AlertEnv) (F : CAlert) (s : AlertState) (calls : List Call) : Prop :=
  ∀ front d back, calls = front ++ d :: back →
    Obeys env F d.now d.alert (front.foldl (call env) s)

theorem obeysAll_iff {F : CAlert} (hinv : Inv env s) (hF : Final F) (hkept : Kept env F s)
    {calls : List Call} :
    ObeysAll env F s calls ↔ ∀ d ∈ calls, Meets env F d.now d.alert := by
  induction calls generalizing s with
  | nil =>
    refine ⟨fun _ d hd => absurd hd List.not_mem_nil, fun _ front d back h => ?_⟩
    exact absurd (congrArg List.length h) (by simp)
  | cons c calls ih =>
    have hinv' : Inv env (call env s c) := hinv.processAlert c.now c.alert
    rw [List.forall_mem_cons, ← obeys_iff hinv hF hkept]
    constructor
    · intro hall
      have hfirst : Obeys env F c.now c.alert s := hall [] c calls rfl
      refine ⟨hfirst, (ih hinv' hfirst.2.2).mp fun front d back h => ?_⟩
      exact hall (c :: front) d back (congrArg (c :: ·) h)
    · rintro ⟨hfirst, hrest⟩ front d back h
      have hall := (ih hinv' hfirst.2.2).mpr hrest
      cases front with
      | nil =>
        obtain ⟨rfl, -⟩ := List.cons.inj h
        exact hfirst
      | cons c' front =>
        obtain ⟨rfl, htail⟩ := List.cons.inj h
        exact hall front d back htail

/-- Once a final alert has been accepted, it stays in effect and the last one exactly when no
other message had its hash, the clock does not run out, and no alert handed over later names
its identifier or has it, unless the final alert cancels its own identifier. -/
theorem finalAlert_stays_iff (env : AlertEnv) (pre : List Call) (c : Call) (post : List Call)
    (F : CAlert) (hcheck : c.alert.checkSignature env = .ok (some F)) (hmax : F.nID = maxInt)
    (haccepted : (processAlert env c.now c.alert (run env pre)).1 = .ok true) :
    ((∀ calls, Unchallenged (run env calls)) ∧ Kept env F (run env (pre ++ [c])) ∧
        ObeysAll env F (run env (pre ++ [c])) post) ↔
      (∀ G, (run env pre).mapAlerts[F.getHash env]? = some G → F.cancels c.now G = false →
        G.isInEffect c.now = true → G.vchMsg = F.vchMsg) ∧
        ∀ d ∈ post, Meets env F d.now d.alert := by
  obtain ⟨hpasses, hF⟩ := final_of_accepted hcheck hmax haccepted
  have hrun : run env (pre ++ [c]) = (processAlert env c.now c.alert (run env pre)).2 := by
    rw [run, List.foldl_append]
    rfl
  rw [and_iff_right fun calls => (run_inv env calls).unchallenged, hrun,
    ← kept_accepted_iff hcheck hpasses haccepted]
  refine and_congr_right fun hkept => ?_
  exact obeysAll_iff ((run_inv env pre).processAlert c.now c.alert) hF hkept

/-! ## Two alerts -/

/-- An alert as it comes over the network. -/
def sent (a : CUnsignedAlert) : CAlert := ⟨a, CUnsignedAlert.serializer.serialize a, []⟩

/-- The alert that the key is compromised. -/
def compromised : CUnsignedAlert where
  nVersion := 1
  nRelayUntil := maxInt
  nExpiration := maxInt
  nID := maxInt
  nCancel := maxInt - 1
  setCancel := ∅
  nMinVer := 0
  nMaxVer := maxInt
  setSubVer := ∅
  nPriority := maxInt
  strComment := []
  strStatusBar := asciiBytes "URGENT: Alert key compromised, upgrade required"
  strReserved := []

/-- An alert that cancels every identifier, the reserved one included. -/
def overriding : CUnsignedAlert where
  nVersion := 1
  nRelayUntil := 1500000000
  nExpiration := 1500000000
  nID := 1
  nCancel := maxInt
  setCancel := ∅
  nMinVer := 0
  nMaxVer := maxInt
  setSubVer := ∅
  nPriority := 0
  strComment := []
  strStatusBar := asciiBytes "all is well"
  strReserved := []

/-- A network on which every signature is good. -/
def signedByAll : AlertEnv := ⟨false, Sha256.double, fun _ _ _ => true⟩

/-- The call accepts the alert. -/
def accepts (env : AlertEnv) (c : Call) (s : AlertState) : Bool :=
  match (processAlert env c.now c.alert s).1 with
  | .ok true => true
  | _ => false

theorem accepts_iff {c : Call} :
    accepts env c s = true ↔ (processAlert env c.now c.alert s).1 = .ok true := by
  unfold accepts
  split
  · next h => exact ⟨fun _ => h, fun _ => rfl⟩
  · next h => exact ⟨fun hfalse => absurd hfalse Bool.false_ne_true, fun htrue => absurd htrue h⟩

/-- The alert that the key is compromised is read back and accepted. -/
theorem compromised_accepted : ∃ F, (sent compromised).checkSignature signedByAll = .ok (some F) ∧
    F.nID = maxInt ∧
      (processAlert signedByAll 1464466700 (sent compromised) (run signedByAll [])).1 =
        .ok true := by
  have hread : ((sent compromised).checkSignature signedByAll).toOption.any
      (Option.any fun F => decide (F.nID = maxInt)) = true := by decide +kernel
  have haccepts : accepts signedByAll ⟨1464466700, sent compromised⟩ (run signedByAll []) = true := by
    decide +kernel
  obtain ⟨found, hfound, hany⟩ := (Option.any_eq_true _ _).mp hread
  obtain ⟨F, rfl, hmax⟩ := (Option.any_eq_true _ _).mp hany
  cases hcheck : (sent compromised).checkSignature signedByAll with
  | error e =>
    rw [hcheck] at hfound
    exact absurd hfound (by simp [Except.toOption])
  | ok r =>
    rw [hcheck] at hfound
    exact ⟨F, congrArg Except.ok (Option.some.inj hfound), of_decide_eq_true hmax,
      accepts_iff.mp haccepts⟩

/-- The final alert handed over twice. -/
theorem finalAlert_stays_again : ∃ F, F.nID = maxInt ∧
    Kept signedByAll F (run signedByAll [⟨1464466700, sent compromised⟩]) ∧
      ObeysAll signedByAll F (run signedByAll [⟨1464466700, sent compromised⟩])
        [⟨1464466800, sent compromised⟩] := by
  obtain ⟨F, hcheck, hmax, haccepted⟩ := compromised_accepted
  have hmsg := (CAlert.checkSignature_eq_some hcheck).2
  have hstays := (finalAlert_stays_iff signedByAll [] ⟨1464466700, sent compromised⟩
    [⟨1464466800, sent compromised⟩] F hcheck hmax haccepted).mpr
  refine ⟨F, hmax, (hstays ⟨fun G hG => ?_, fun d hd => ?_⟩).2⟩
  · simp [run, AlertState.empty] at hG
  · obtain rfl := List.mem_singleton.mp hd
    refine ⟨by decide, fun b hb _ => .inl ?_⟩
    exact (CAlert.checkSignature_eq_some hb).2.trans hmsg.symm

/-- An alert that names every identifier is accepted after the final one and removes it. -/
theorem finalAlert_overridden : ∃ F, (sent compromised).checkSignature signedByAll = .ok (some F) ∧
    F.nID = maxInt ∧
      (processAlert signedByAll 1464466700 (sent compromised) (run signedByAll [])).1 = .ok true ∧
      (processAlert signedByAll 1464466800 (sent overriding)
        (run signedByAll [⟨1464466700, sent compromised⟩])).1 = .ok true ∧
      (run signedByAll [⟨1464466700, sent compromised⟩,
        ⟨1464466800, sent overriding⟩]).mapAlerts[F.getHash signedByAll]? = none ∧
      ¬ ObeysAll signedByAll F (run signedByAll [⟨1464466700, sent compromised⟩])
        [⟨1464466800, sent overriding⟩] := by
  obtain ⟨F, hcheck, hmax, haccepted⟩ := compromised_accepted
  have hmsg := (CAlert.checkSignature_eq_some hcheck).2
  have haccepts : accepts signedByAll ⟨1464466800, sent overriding⟩
      (run signedByAll [⟨1464466700, sent compromised⟩]) = true := by decide +kernel
  have hsecond : (processAlert signedByAll 1464466800 (sent overriding)
      (run signedByAll [⟨1464466700, sent compromised⟩])).1 = .ok true :=
    (@accepts_iff signedByAll _ ⟨1464466800, sent overriding⟩).mp haccepts
  have herased : ((run signedByAll [⟨1464466700, sent compromised⟩,
      ⟨1464466800, sent overriding⟩]).mapAlerts[(sent compromised).getHash signedByAll]?).isNone =
        true := by decide +kernel
  have hhash := CAlert.getHash_congr signedByAll hmsg
  have hother : (sent overriding).vchMsg.length ≠ (sent compromised).vchMsg.length := by
    decide +kernel
  refine ⟨F, hcheck, hmax, haccepted, hsecond, ?_, fun hall => ?_⟩
  · rw [hhash]
    exact Option.isNone_iff_eq_none.mp herased
  · have hobeys : Obeys signedByAll F 1464466800 (sent overriding)
        (run signedByAll [⟨1464466700, sent compromised⟩]) :=
      hall [] ⟨1464466800, sent overriding⟩ [] rfl
    have hsame : (sent overriding).vchMsg = F.vchMsg := hobeys.2.1 hsecond
    rw [hsame, hmsg] at hother
    exact hother rfl

end AlertState

end NoLimitCoin
