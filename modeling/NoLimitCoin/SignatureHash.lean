import NoLimitCoin.Interpreter
import NoLimitCoin.PrefixCodes

/-!
# What a signature signs

`SignatureHash`, `CSignatureCache` and `CheckSig` of `script.cpp`.  The hash type of a
signature chooses the parts of the transaction that are serialized and hashed; the cache keeps
the checks that succeeded, and random entries leave it when it is full.  The hash function and
the elliptic curve are parameters.

Results:

1. `findAndDelete_ne_nil`: no script with an instruction other than a code separator becomes
   empty.
2. `CSignatureCache.mem_set`: the cache gains at most the entry that is put in.
-/

namespace NoLimitCoin

open Interpreter

def opCodeSeparator : UInt8 := 0xab

def sighashAll : Int := 1
def sighashNone : Int := 2
def sighashSingle : Int := 3

/-- `nHashType & 0x1f`. -/
def hashBase (nHashType : Int) : Int := nHashType % 32

/-- `nHashType & SIGHASH_ANYONECANPAY`. -/
def anyoneCanPay (nHashType : Int) : Bool := nHashType / 128 % 2 = 1

/-! ## The transaction that is hashed -/

/-- `SetNull`. -/
def CTxOut.null : CTxOut := ⟨-1, []⟩

/-- The other inputs' signatures are blanked out. -/
def blankSignatures (scriptCode : CScript) (nIn : Nat) (vin : List CTxIn) : List CTxIn :=
  (vin.map fun txin => { txin with scriptSig := [] }).modify nIn fun txin =>
    { txin with scriptSig := scriptCode }

/-- The others may update at will. -/
def openSequences (nIn : Nat) (vin : List CTxIn) : List CTxIn :=
  vin.mapIdx fun i txin => if i ≠ nIn then { txin with nSequence := 0 } else txin

/-- `vout.resize(nOut + 1)`, then `SetNull` before `nOut`. -/
def onlyOutput (nOut : Nat) (vout : List CTxOut) : List CTxOut :=
  (vout.take (nOut + 1)).mapIdx fun i txout => if i < nOut then .null else txout

/-- `vin[0] = vin[nIn]; vin.resize(1)`. -/
def onlyInput (nIn : Nat) (vin : List CTxIn) : List CTxIn :=
  match vin[nIn]? with
  | none => vin
  | some txin => (vin.set 0 txin).take 1

/-- `txTmp` of `SignatureHash`, unless an index is out of range. -/
def signatureTx (scriptCode : CScript) (txTo : CTransaction) (nIn : Nat) (nHashType : Int) :
    Option CTransaction :=
  if txTo.vin.length ≤ nIn then none
  else
    let scriptCode := findAndDelete scriptCode [opCodeSeparator]
    let txTmp := { txTo with vin := blankSignatures scriptCode nIn txTo.vin }
    let masked : Option CTransaction :=
      if hashBase nHashType = sighashNone then
        some { txTmp with vout := [], vin := openSequences nIn txTmp.vin }
      else if hashBase nHashType = sighashSingle then
        if txTmp.vout.length ≤ nIn then none
        else
          some { txTmp with vout := onlyOutput nIn txTmp.vout, vin := openSequences nIn txTmp.vin }
      else some txTmp
    masked.map fun txTmp =>
      if anyoneCanPay nHashType then { txTmp with vin := onlyInput nIn txTmp.vin } else txTmp

/-- What the checks take from elsewhere: `Hash`, and `SetPubKey` and `Verify` of a `CKey`. -/
structure SigEnv (Key : Type) where
  hash : List UInt8 → Uint256
  setPubKey : (vchPubKey : Valtype) → Option Key
  verify : Key → (hash : Uint256) → (vchSig : Valtype) → Bool

def signatureHash {Key : Type} (env : SigEnv Key) (scriptCode : CScript) (txTo : CTransaction) (nIn : Nat)
    (nHashType : Int) : Uint256 :=
  match signatureTx scriptCode txTo nIn nHashType with
  | none => 1
  | some txTmp => env.hash (txTmp.serialize ++ leBytesInt 4 nHashType)

/-! ## The cache -/

/-- `sigdata_type`, in the order of a tuple. -/
structure Sigdata where
  hash : Uint256
  vchSig : Valtype
  pubKey : Valtype
deriving Repr, DecidableEq

namespace Sigdata

attribute [local instance] lexOrd

private def tuple (k : Sigdata) : Nat × Valtype × Valtype := (k.hash, k.vchSig, k.pubKey)

instance : Ord Sigdata := ⟨fun a b => compare (tuple a) (tuple b)⟩

instance : Std.TransOrd Sigdata := transOrd_of_map tuple fun _ _ => rfl

instance : Std.LawfulEqOrd Sigdata :=
  lawfulEqOrd_of_injective tuple (fun ⟨_, _, _⟩ ⟨_, _, _⟩ h => by simpa [tuple] using h)
    fun _ _ => rfl

end Sigdata

/-- `setValid`. -/
abbrev CSignatureCache := Map Sigdata Unit

namespace CSignatureCache

def get (setValid : CSignatureCache) (k : Sigdata) : Bool := setValid.contains k

/-- `lower_bound`, or `begin` past the end. -/
def victim (setValid : CSignatureCache) (randomHash : Uint256) : Option Sigdata :=
  (setValid.keys.find? fun k => !(compare k ⟨randomHash, [], []⟩).isLT) <|> setValid.keys.head?

def evict (setValid : CSignatureCache) (randomHash : Uint256) : CSignatureCache :=
  match victim setValid randomHash with
  | none => setValid
  | some k => setValid.erase k

/-- The loop of `Set`; the rounds number the calls of `GetRandHash` backwards. -/
def shrink (nMaxCacheSize : Int) (randHash : Nat → Uint256) :
    (fuel : Nat) → CSignatureCache → CSignatureCache
  | 0, setValid => setValid
  | fuel + 1, setValid =>
    if nMaxCacheSize < setValid.size then
      shrink nMaxCacheSize randHash fuel (setValid.evict (randHash fuel))
    else setValid

def set (nMaxCacheSize : Int) (randHash : Nat → Uint256) (setValid : CSignatureCache)
    (k : Sigdata) : CSignatureCache :=
  if nMaxCacheSize ≤ 0 then setValid
  else (shrink nMaxCacheSize randHash setValid.size setValid).insert k ()

end CSignatureCache

/-! ## CheckSig -/

/-- The arguments of `CheckSig`, the argument `-maxsigcachesize` and the random hashes of the
call. -/
structure SigCall where
  vchSig : Valtype
  vchPubKey : Valtype
  scriptCode : CScript
  txTo : CTransaction
  nIn : Nat
  nHashType : Int
  nMaxCacheSize : Int
  randHash : Nat → Uint256

def SigEnv.checkSig {Key : Type} (env : SigEnv Key) (signatureCache : CSignatureCache) (call : SigCall) :
    CSignatureCache × Bool :=
  match call.vchSig.getLast? with
  | none => (signatureCache, false)
  | some back =>
    let nHashType : Int := if call.nHashType = 0 then back.toNat else call.nHashType
    if nHashType ≠ back.toNat then (signatureCache, false)
    else
      let vchSig := call.vchSig.dropLast
      let sighash := signatureHash env call.scriptCode call.txTo call.nIn nHashType
      let k : Sigdata := ⟨sighash, vchSig, call.vchPubKey⟩
      if signatureCache.get k then (signatureCache, true)
      else
        match env.setPubKey call.vchPubKey with
        | none => (signatureCache, false)
        | some key =>
          if env.verify key sighash vchSig then
            (signatureCache.set call.nMaxCacheSize call.randHash k, true)
          else (signatureCache, false)

/-- The cache after the checks `calls`. -/
def SigEnv.history {Key : Type} (env : SigEnv Key) (calls : List SigCall) : CSignatureCache :=
  calls.foldl (fun cache call => (env.checkSig cache call).1) ∅

/-! ## Scripts without code separators -/

theorem mem_eraseCopies {b x : UInt8} (hx : x ≠ b) {fuel : Nat} {pc : CScript} (h : x ∈ pc) :
    x ∈ eraseCopies [b] fuel pc := by
  induction fuel generalizing pc with
  | zero => exact h
  | succ fuel ih =>
    rw [eraseCopies]
    split
    · next hprefix =>
      cases pc with
      | nil => exact absurd h List.not_mem_nil
      | cons y pc =>
        have hy : b = y := by simpa using hprefix
        subst hy
        exact ih ((List.mem_cons.mp h).resolve_left hx)
    · exact h

theorem length_eraseCopies_le (b : CScript) (fuel : Nat) (pc : CScript) :
    (eraseCopies b fuel pc).length ≤ pc.length := by
  induction fuel generalizing pc with
  | zero => exact le_refl _
  | succ fuel ih =>
    rw [eraseCopies]
    split
    · exact (ih _).trans (by rw [List.length_drop]; exact Nat.sub_le _ _)
    · exact le_refl _

theorem length_findAndDeleteLoop_le (b : CScript) (fuel : Nat) (pc : CScript) :
    (findAndDeleteLoop b fuel pc).length ≤ pc.length := by
  induction fuel generalizing pc with
  | zero => exact le_refl _
  | succ fuel ih =>
    have herase := length_eraseCopies_le b pc.length pc
    rw [findAndDeleteLoop]
    split
    · exact herase
    · next rest hop =>
      have hrest := CScript.length_getOp hop
      have hloop := ih rest
      rw [List.length_append, List.length_take]
      omega

theorem length_findAndDelete_le (script b : CScript) :
    (findAndDelete script b).length ≤ script.length := by
  unfold findAndDelete
  split
  · exact le_refl _
  · exact length_findAndDeleteLoop_le b _ script

/-- Deleting a byte leaves a script that has another one. -/
theorem findAndDelete_ne_nil {b x : UInt8} (hx : x ≠ b) {script : CScript} (h : x ∈ script) :
    findAndDelete script [b] ≠ [] := by
  have hmem : x ∈ eraseCopies [b] script.length script := mem_eraseCopies hx h
  rw [findAndDelete, if_neg (List.cons_ne_nil _ _), findAndDeleteLoop]
  split
  · exact List.ne_nil_of_mem hmem
  · next rest hop =>
    have hrest := CScript.length_getOp hop
    refine List.append_ne_nil_of_left_ne_nil (fun hnil => ?_) _
    have hlen := congrArg List.length hnil
    rw [List.length_take, List.length_nil] at hlen
    omega

/-! ## The entries of the cache -/

namespace CSignatureCache

theorem mem_evict {setValid : CSignatureCache} {randomHash : Uint256} {k : Sigdata}
    (h : (setValid.evict randomHash).get k = true) : setValid.get k = true := by
  unfold evict at h
  split at h
  · exact h
  · rw [get, Map.contains_iff] at *
    obtain ⟨v, hv⟩ := h
    rw [Map.getElem?_erase] at hv
    split at hv
    · exact absurd hv (by simp)
    · exact ⟨v, hv⟩

theorem mem_shrink {nMaxCacheSize : Int} {randHash : Nat → Uint256} {fuel : Nat}
    {setValid : CSignatureCache} {k : Sigdata}
    (h : (shrink nMaxCacheSize randHash fuel setValid).get k = true) : setValid.get k = true := by
  induction fuel generalizing setValid with
  | zero => exact h
  | succ fuel ih =>
    rw [shrink] at h
    split at h
    · exact mem_evict (ih h)
    · exact h

/-- An entry was there before, or is the one that is put in. -/
theorem mem_set {nMaxCacheSize : Int} {randHash : Nat → Uint256} {setValid : CSignatureCache}
    {k k' : Sigdata} (h : (setValid.set nMaxCacheSize randHash k).get k' = true) :
    setValid.get k' = true ∨ k' = k := by
  unfold set at h
  split at h
  · exact .inl h
  · rw [get, Map.contains_iff] at h
    obtain ⟨v, hv⟩ := h
    rw [Map.getElem?_insert] at hv
    split at hv
    · next hk => exact .inr hk.symm
    · exact .inl (mem_shrink ((Map.contains_iff _ _).mpr ⟨v, hv⟩))

end CSignatureCache

end NoLimitCoin
