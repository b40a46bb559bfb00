import NoLimitCoin.Lib.PrefixFree
import NoLimitCoin.Encoding

/-!
# Serialized transactions determine the transaction

Every serialized member either has a fixed length or writes its length first, so the bytes of a
transaction are a prefix-free code.  Nothing here depends on the limit that reading puts on a
compact size: the members only have to fit the types of the source.

Result: `CTransaction.prefixFree_serialize`.
-/

namespace NoLimitCoin

/-! ## Numbers -/

theorem prefixFree_leBytes (width : Nat) : PrefixFree (· < 256 ^ width) (leBytes width) := by
  refine PrefixFree.of_length (length_leBytes width) fun a b ha hb h => ?_
  have hnat := congrArg leNat h
  rwa [leNat_leBytes, leNat_leBytes, Nat.mod_eq_of_lt ha, Nat.mod_eq_of_lt hb] at hnat

theorem prefixFree_leBytesInt {width : Nat} (hpos : 0 < width) :
    PrefixFree (fun n => -2 ^ (8 * width - 1) ≤ n ∧ n < 2 ^ (8 * width - 1)) (leBytesInt width) := by
  refine PrefixFree.of_length (fun n => length_leBytes width _) fun a b ha hb h => ?_
  have hint := congrArg (fun bytes => Int.bmod (leNat bytes) (2 ^ (8 * width))) h
  rwa [Serializer.Flat.bmod_leBytesInt hpos ha, Serializer.Flat.bmod_leBytesInt hpos hb] at hint

/-- The first bytes that announce a longer compact size, and how many bytes follow. -/
def sizeMarkers : List (UInt8 × Nat) := [(253, 2), (254, 4), (255, 8)]

theorem marker_ge {b : UInt8} {width : Nat} (h : (b, width) ∈ sizeMarkers) : 253 ≤ b.toNat := by
  simp only [sizeMarkers, List.mem_cons, Prod.mk.injEq, List.not_mem_nil, or_false] at h
  rcases h with ⟨rfl, -⟩ | ⟨rfl, -⟩ | ⟨rfl, -⟩ <;> decide

theorem marker_unique {b : UInt8} {width width' : Nat} (h : (b, width) ∈ sizeMarkers)
    (h' : (b, width') ∈ sizeMarkers) : width = width' := by
  simp only [sizeMarkers, List.mem_cons, Prod.mk.injEq, List.not_mem_nil, or_false] at h h'
  rcases h with ⟨rfl, rfl⟩ | ⟨rfl, rfl⟩ | ⟨rfl, rfl⟩ <;> simpa [eq_comm] using h'

/-- The first byte tells how many bytes follow. -/
theorem compactSize_cases {n : Nat} (h : n < 256 ^ 8) :
    (∃ b : UInt8, compactSize n = [b] ∧ b.toNat = n ∧ n < 253) ∨
      ∃ b width, (b, width) ∈ sizeMarkers ∧
        compactSize n = b :: leBytes width n ∧ n < 256 ^ width := by
  unfold compactSize
  split
  · next hn =>
    refine .inl ⟨UInt8.ofNat (n % 256), rfl, ?_, hn⟩
    rw [UInt8.toNat_ofNat', Nat.mod_mod]
    exact Nat.mod_eq_of_lt (hn.trans (by decide))
  split
  · next hn => exact .inr ⟨253, 2, by simp [sizeMarkers], rfl, Nat.lt_succ_of_le hn⟩
  split
  · next hn => exact .inr ⟨254, 4, by simp [sizeMarkers], rfl, Nat.lt_succ_of_le hn⟩
  · exact .inr ⟨255, 8, by simp [sizeMarkers], rfl, h⟩

theorem prefixFree_compactSize : PrefixFree (· < 256 ^ 8) compactSize := by
  intro m n hm hn r s h
  rcases compactSize_cases hm with ⟨b, hb, hbm, hlt⟩ | ⟨b, width, hmem, hb, hlt⟩
  · rcases compactSize_cases hn with ⟨b', hb', hbn, -⟩ | ⟨b', width', hmem', hb', -⟩
    · rw [hb, hb'] at h
      obtain ⟨rfl, hrest⟩ := List.cons.inj h
      exact ⟨hbm.symm.trans hbn, hrest⟩
    · rw [hb, hb'] at h
      obtain ⟨rfl, -⟩ := List.cons.inj h
      exact absurd hlt (not_lt.mpr (hbm ▸ marker_ge hmem'))
  · rcases compactSize_cases hn with ⟨b', hb', hbn, hlt'⟩ | ⟨b', width', hmem', hb', hlt'⟩
    · rw [hb, hb'] at h
      obtain ⟨rfl, -⟩ := List.cons.inj h
      exact absurd hlt' (not_lt.mpr (hbn ▸ marker_ge hmem))
    · rw [hb, hb'] at h
      obtain ⟨rfl, hrest⟩ := List.cons.inj h
      have hwidth := marker_unique hmem hmem'
      subst hwidth
      exact prefixFree_leBytes width m n hlt hlt' r s hrest

/-! ## Vectors -/

theorem prefixFree_serializeVector {α : Type} {Valid : α → Prop} {serialize : α → List UInt8}
    (h : PrefixFree Valid serialize) :
    PrefixFree (fun xs : List α => xs.length < 256 ^ 8 ∧ ∀ a ∈ xs, Valid a)
      (serializeVector serialize) :=
  prefixFree_compactSize.counted h

theorem prefixFree_serializeBytes :
    PrefixFree (fun bytes => bytes.length < 256 ^ 8) serializeBytes := by
  intro a b ha hb r s h
  simp only [serializeBytes, List.append_assoc] at h
  obtain ⟨hlen, hrest⟩ := prefixFree_compactSize _ _ ha hb _ _ h
  exact List.append_inj hrest hlen

/-! ## Transactions -/

namespace COutPoint

theorem prefixFree_serialize : PrefixFree Encodable COutPoint.serialize := by
  rintro ⟨hash, n⟩ ⟨hash', n'⟩ ha hb r s h
  simp only [COutPoint.serialize, serializeHash, List.append_assoc] at h
  obtain ⟨rfl, h₁⟩ := prefixFree_leBytes 32 hash hash' ha.1 hb.1 _ _ h
  obtain ⟨rfl, h₂⟩ := prefixFree_leBytes 4 n n' ha.2 hb.2 _ _ h₁
  exact ⟨rfl, h₂⟩

end COutPoint

namespace CTxIn

/-- The members fit the types of the source. -/
structure Fits (txin : CTxIn) : Prop where
  prevout : txin.prevout.Encodable
  scriptSig : txin.scriptSig.length < 256 ^ 8
  nSequence : txin.nSequence < 256 ^ 4

theorem prefixFree_serialize : PrefixFree Fits CTxIn.serialize := by
  rintro ⟨prevout, scriptSig, nSequence⟩ ⟨prevout', scriptSig', nSequence'⟩ ha hb r s h
  simp only [CTxIn.serialize, List.append_assoc] at h
  obtain ⟨rfl, h₁⟩ := COutPoint.prefixFree_serialize prevout prevout' ha.prevout hb.prevout _ _ h
  obtain ⟨rfl, h₂⟩ := prefixFree_serializeBytes scriptSig scriptSig' ha.scriptSig hb.scriptSig _ _ h₁
  obtain ⟨rfl, h₃⟩ := prefixFree_leBytes 4 nSequence nSequence' ha.nSequence hb.nSequence _ _ h₂
  exact ⟨rfl, h₃⟩

end CTxIn

namespace CTxOut

structure Fits (txout : CTxOut) : Prop where
  nValue : -2 ^ (8 * 8 - 1) ≤ txout.nValue ∧ txout.nValue < 2 ^ (8 * 8 - 1)
  scriptPubKey : txout.scriptPubKey.length < 256 ^ 8

theorem prefixFree_serialize : PrefixFree Fits CTxOut.serialize := by
  rintro ⟨nValue, scriptPubKey⟩ ⟨nValue', scriptPubKey'⟩ ha hb r s h
  simp only [CTxOut.serialize, List.append_assoc] at h
  obtain ⟨rfl, h₁⟩ := prefixFree_leBytesInt (by decide) nValue nValue' ha.nValue hb.nValue _ _ h
  obtain ⟨rfl, h₂⟩ := prefixFree_serializeBytes scriptPubKey scriptPubKey' ha.scriptPubKey hb.scriptPubKey _ _ h₁
  exact ⟨rfl, h₂⟩

end CTxOut

namespace CTransaction

structure Fits (tx : CTransaction) : Prop where
  nVersion : -2 ^ (8 * 4 - 1) ≤ tx.nVersion ∧ tx.nVersion < 2 ^ (8 * 4 - 1)
  nTime : tx.nTime < 256 ^ 4
  vin : tx.vin.length < 256 ^ 8 ∧ ∀ txin ∈ tx.vin, txin.Fits
  vout : tx.vout.length < 256 ^ 8 ∧ ∀ txout ∈ tx.vout, txout.Fits
  nLockTime : tx.nLockTime < 256 ^ 4

theorem prefixFree_serialize : PrefixFree Fits CTransaction.serialize := by
  rintro ⟨nVersion, nTime, vin, vout, nLockTime⟩ ⟨nVersion', nTime', vin', vout', nLockTime'⟩ ha hb
    r s h
  simp only [CTransaction.serialize, List.append_assoc] at h
  obtain ⟨rfl, h₁⟩ := prefixFree_leBytesInt (by decide) nVersion nVersion' ha.nVersion hb.nVersion _ _ h
  obtain ⟨rfl, h₂⟩ := prefixFree_leBytes 4 nTime nTime' ha.nTime hb.nTime _ _ h₁
  obtain ⟨rfl, h₃⟩ :=
    prefixFree_serializeVector CTxIn.prefixFree_serialize vin vin' ha.vin hb.vin _ _ h₂
  obtain ⟨rfl, h₄⟩ :=
    prefixFree_serializeVector CTxOut.prefixFree_serialize vout vout' ha.vout hb.vout _ _ h₃
  obtain ⟨rfl, h₅⟩ := prefixFree_leBytes 4 nLockTime nLockTime' ha.nLockTime hb.nLockTime _ _ h₄
  exact ⟨rfl, h₅⟩

end CTransaction

end NoLimitCoin
