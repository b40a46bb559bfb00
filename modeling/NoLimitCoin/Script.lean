import NoLimitCoin.Serialize

/-!
# Scripts

What the block checks read off a script (`script.h`, `script.cpp`): its instructions one by
one, the number of signature operations, and the pay-to-script-hash form.
-/

namespace NoLimitCoin

def op1 : Nat := 0x51
def op16 : Nat := 0x60
def opPushdata1 : Nat := 0x4c
def opPushdata2 : Nat := 0x4d
def opPushdata4 : Nat := 0x4e
def opHash160 : UInt8 := 0xa9
def opEqual : UInt8 := 0x87
def opCheckSig : Nat := 0xac
def opCheckSigVerify : Nat := 0xad
def opCheckMultiSig : Nat := 0xae
def opCheckMultiSigVerify : Nat := 0xaf
def opInvalidOpcode : Nat := 0xff

/-- An unsigned value from its bytes, least significant first. -/
def ofLeBytes : List UInt8 → Nat
  | [] => 0
  | b :: bs => b.toNat + 256 * ofLeBytes bs

theorem ofLeBytes_lt (vch : List UInt8) : ofLeBytes vch < 256 ^ vch.length := by
  induction vch with
  | nil => exact Nat.one_pos
  | cons b bs ih =>
    have hb := b.toNat_lt
    rw [ofLeBytes, List.length_cons, Nat.pow_succ]
    omega

namespace CScript

/-- The operand of a push: the size field of `width` bytes, then the data. -/
private def getData (width : Nat) (pc : CScript) : Option (List UInt8 × CScript) :=
  if pc.length < width then none
  else
    let nSize := ofLeBytes (pc.take width)
    let rest := pc.drop width
    if rest.length < nSize then none else some (rest.take nSize, rest.drop nSize)

/-- `GetOp2`: the opcode at `pc`, the data it pushes, and the script after it. -/
def getOp : CScript → Option (Nat × List UInt8 × CScript)
  | [] => none
  | b :: pc =>
    let opcode := b.toNat
    if opcode < opPushdata1 then
      if pc.length < opcode then none else some (opcode, pc.take opcode, pc.drop opcode)
    else if opcode = opPushdata1 then (getData 1 pc).map fun (vch, rest) => (opcode, vch, rest)
    else if opcode = opPushdata2 then (getData 2 pc).map fun (vch, rest) => (opcode, vch, rest)
    else if opcode = opPushdata4 then (getData 4 pc).map fun (vch, rest) => (opcode, vch, rest)
    else some (opcode, [], pc)

/-- The size field `size` behind an opcode announces data of length `n`. -/
def SizeField (opcode : Nat) (size : List UInt8) (n : Nat) : Prop :=
  if opcode < opPushdata1 then size = [] ∧ n = opcode
  else if opcode = opPushdata1 then size.length = 1 ∧ n = ofLeBytes size
  else if opcode = opPushdata2 then size.length = 2 ∧ n = ofLeBytes size
  else if opcode = opPushdata4 then size.length = 4 ∧ n = ofLeBytes size
  else size = [] ∧ n = 0

private theorem getData_eq_some {width : Nat} {pc vch rest : CScript} :
    getData width pc = some (vch, rest) ↔ ∃ size : List UInt8, size.length = width ∧
      vch.length = ofLeBytes size ∧ pc = size ++ (vch ++ rest) := by
  constructor
  · intro h
    unfold getData at h
    dsimp only at h
    split at h
    · cases h
    next hwidth =>
    split at h
    · cases h
    next hsize =>
    cases h
    refine ⟨pc.take width, ?_, ?_, ?_⟩
    · rw [List.length_take, Nat.min_eq_left (Nat.le_of_not_lt hwidth)]
    · rw [List.length_take, Nat.min_eq_left (Nat.le_of_not_lt hsize)]
    · rw [List.take_append_drop, List.take_append_drop]
  · rintro ⟨size, rfl, hvch, rfl⟩
    unfold getData
    dsimp only
    rw [if_neg (by rw [List.length_append]; omega), List.take_left, List.drop_left, ← hvch,
      if_neg (by rw [List.length_append]; omega), List.take_left, List.drop_left]

/-- An instruction is its byte, a size field and data. -/
theorem getOp_eq_some {pc vch rest : CScript} {opcode : Nat} :
    getOp pc = some (opcode, vch, rest) ↔ ∃ (b : UInt8) (size : List UInt8),
      b.toNat = opcode ∧ SizeField opcode size vch.length ∧ pc = b :: (size ++ (vch ++ rest)) := by
  cases pc with
  | nil =>
    refine iff_of_false (fun h => by cases h) ?_
    rintro ⟨b, size, -, -, h⟩
    cases h
  | cons b pc =>
    have hbyte : (∃ (b' : UInt8) (size : List UInt8), b'.toNat = opcode ∧
        SizeField opcode size vch.length ∧ b :: pc = b' :: (size ++ (vch ++ rest))) ↔
          b.toNat = opcode ∧ ∃ size, SizeField opcode size vch.length ∧
            pc = size ++ (vch ++ rest) := by
      constructor
      · rintro ⟨b', size, hcode, hsize, hpc⟩
        obtain ⟨rfl, rfl⟩ := List.cons.inj hpc
        exact ⟨hcode, size, hsize, rfl⟩
      · rintro ⟨hcode, size, hsize, rfl⟩
        exact ⟨b, size, hcode, hsize, rfl⟩
    -- the three sizes that are written out
    have hmap : ∀ width : Nat, ((getData width pc).map fun (vch, rest) => (b.toNat, vch, rest)) =
        some (opcode, vch, rest) ↔ b.toNat = opcode ∧ ∃ size : List UInt8,
          (size.length = width ∧ vch.length = ofLeBytes size) ∧ pc = size ++ (vch ++ rest) := by
      intro width
      rw [Option.map_eq_some_iff]
      constructor
      · rintro ⟨⟨vch', rest'⟩, hdata, heq⟩
        cases heq
        obtain ⟨size, hwidth, hvch, hpc⟩ := getData_eq_some.mp hdata
        exact ⟨rfl, size, ⟨hwidth, hvch⟩, hpc⟩
      · rintro ⟨rfl, size, ⟨hwidth, hvch⟩, hpc⟩
        exact ⟨(vch, rest), getData_eq_some.mpr ⟨size, hwidth, hvch, hpc⟩, rfl⟩
    rw [hbyte, and_congr_right_iff.mpr fun hcode => by rw [← hcode]]
    unfold getOp SizeField
    dsimp only
    split
    · next hsmall =>
      constructor
      · intro h
        split at h
        · cases h
        next hlen =>
        cases h
        refine ⟨rfl, [], ⟨rfl, ?_⟩, (List.take_append_drop _ pc).symm⟩
        rw [List.length_take, Nat.min_eq_left (Nat.le_of_not_lt hlen)]
      · rintro ⟨rfl, size, ⟨rfl, hvch⟩, rfl⟩
        rw [List.nil_append, ← hvch, if_neg (by rw [List.length_append]; omega), List.take_left,
          List.drop_left]
    · split
      · exact hmap 1
      · split
        · exact hmap 2
        · split
          · exact hmap 4
          · constructor
            · intro h
              cases h
              exact ⟨rfl, [], ⟨rfl, rfl⟩, rfl⟩
            · rintro ⟨rfl, size, ⟨rfl, hvch⟩, rfl⟩
              rw [List.eq_nil_of_length_eq_zero hvch]
              rfl

theorem SizeField.length_le {opcode n : Nat} {size : List UInt8} (h : SizeField opcode size n) :
    size.length ≤ 4 := by
  unfold SizeField at h
  split at h
  · rw [h.1]
    exact Nat.zero_le 4
  · split at h
    · omega
    · split at h
      · omega
      · split at h
        · omega
        · rw [h.1]
          exact Nat.zero_le 4

/-- Only pushes have data. -/
theorem getOp_data_nil {pc rest : CScript} {opcode : Nat} {vch : List UInt8}
    (h : getOp pc = some (opcode, vch, rest)) (hcode : opPushdata4 < opcode) : vch = [] := by
  obtain ⟨b, size, -, hsize, -⟩ := getOp_eq_some.mp h
  unfold opPushdata4 at hcode
  unfold SizeField opPushdata1 opPushdata2 opPushdata4 at hsize
  rw [if_neg (by omega), if_neg (by omega), if_neg (by omega), if_neg (by omega)] at hsize
  exact List.eq_nil_of_length_eq_zero hsize.2

/-- Every instruction takes at least its own byte. -/
theorem length_getOp {pc rest : CScript} {opcode : Nat} {vch : List UInt8}
    (h : getOp pc = some (opcode, vch, rest)) : rest.length < pc.length := by
  obtain ⟨b, size, -, -, rfl⟩ := getOp_eq_some.mp h
  rw [List.length_cons, List.length_append, List.length_append]
  omega

/-- An instruction takes its byte, the size field of at most four bytes and the data. -/
theorem le_length_getOp {pc rest : CScript} {opcode : Nat} {vch : List UInt8}
    (h : getOp pc = some (opcode, vch, rest)) : pc.length ≤ rest.length + vch.length + 5 := by
  obtain ⟨b, size, -, hsize, rfl⟩ := getOp_eq_some.mp h
  have hle := hsize.length_le
  rw [List.length_cons, List.length_append, List.length_append]
  omega

/-- What is left after an instruction is the end of the script. -/
theorem getOp_suffix {pc rest : CScript} {opcode : Nat} {vch : List UInt8}
    (h : getOp pc = some (opcode, vch, rest)) : rest <:+ pc := by
  obtain ⟨b, size, -, -, rfl⟩ := getOp_eq_some.mp h
  exact ⟨b :: (size ++ vch), by rw [List.cons_append, List.append_assoc]⟩

/-- An instruction is read from its own bytes, whatever follows them. -/
theorem getOp_append {front vch rest : CScript} {opcode : Nat} :
    getOp (front ++ rest) = some (opcode, vch, rest) ↔ getOp front = some (opcode, vch, []) := by
  rw [getOp_eq_some, getOp_eq_some]
  refine exists_congr fun b => exists_congr fun size => and_congr_right fun _ =>
    and_congr_right fun _ => ?_
  rw [List.append_nil, ← List.append_assoc, ← List.cons_append, List.append_cancel_right_eq]

/-- A push takes no less than its size needs. -/
theorem push_length_getOp {pc rest : CScript} {opcode : Nat} {vch : List UInt8}
    (h : getOp pc = some (opcode, vch, rest)) (hcode : opcode ≤ opPushdata4) :
    (if vch.length < opPushdata1 then 1 else if vch.length ≤ 0xff then 2
      else if vch.length ≤ 0xffff then 3 else 5) + vch.length + rest.length ≤ pc.length := by
  obtain ⟨b, size, -, hsize, rfl⟩ := getOp_eq_some.mp h
  have hlt := ofLeBytes_lt size
  rw [List.length_cons, List.length_append, List.length_append]
  unfold SizeField at hsize
  split at hsize
  · next hsmall =>
    rw [if_pos (hsize.2 ▸ hsmall)]
    omega
  · split at hsize
    · rw [hsize.1, ← hsize.2] at hlt
      split <;> [skip; split] <;> omega
    · split at hsize
      · rw [hsize.1, ← hsize.2] at hlt
        split <;> [skip; split <;> [skip; split]] <;> omega
      · split at hsize
        · split <;> [skip; split <;> [skip; split]] <;> omega
        · unfold opPushdata1 opPushdata2 opPushdata4 at *
          omega

/-- The data behind its size, the size written with a byte. -/
theorem getOp_pushdata1 {vch : CScript} (rest : CScript) (h : vch.length ≤ 0xff) :
    getOp (0x4c :: UInt8.ofNat vch.length :: (vch ++ rest)) = some (opPushdata1, vch, rest) := by
  have hsize : (UInt8.ofNat vch.length).toNat = vch.length := by
    rw [UInt8.toNat_ofNat']
    exact Nat.mod_eq_of_lt (Nat.lt_succ_of_le h)
  have hdata : getData 1 (UInt8.ofNat vch.length :: (vch ++ rest)) = some (vch, rest) := by
    simp [getData, ofLeBytes, hsize]
  show (getData 1 (UInt8.ofNat vch.length :: (vch ++ rest))).map _ = _
  rw [hdata]
  rfl

/-- The data behind its size, the size written with two bytes. -/
theorem getOp_pushdata2 {vch : CScript} (rest : CScript) (h : vch.length ≤ 0xffff) :
    getOp (0x4d :: UInt8.ofNat vch.length :: UInt8.ofNat (vch.length / 256) :: (vch ++ rest)) =
      some (opPushdata2, vch, rest) := by
  have hlow : (UInt8.ofNat vch.length).toNat = vch.length % 256 := UInt8.toNat_ofNat'
  have hhigh : (UInt8.ofNat (vch.length / 256)).toNat = vch.length / 256 := by
    rw [UInt8.toNat_ofNat']
    exact Nat.mod_eq_of_lt (by omega)
  have hsize : vch.length % 256 + 256 * (vch.length / 256) = vch.length := Nat.mod_add_div _ _
  have hdata : getData 2 (UInt8.ofNat vch.length :: UInt8.ofNat (vch.length / 256) ::
      (vch ++ rest)) = some (vch, rest) := by
    simp [getData, ofLeBytes, hlow, hhigh, hsize]
  show (getData 2 (UInt8.ofNat vch.length :: UInt8.ofNat (vch.length / 256) ::
    (vch ++ rest))).map _ = _
  rw [hdata]
  rfl

/-- The signature operations one instruction counts for. -/
def sigOps (fAccurate : Bool) (lastOpcode opcode : Nat) : Nat :=
  if opcode = opCheckSig ∨ opcode = opCheckSigVerify then 1
  else if opcode = opCheckMultiSig ∨ opcode = opCheckMultiSigVerify then
    if fAccurate ∧ op1 ≤ lastOpcode ∧ lastOpcode ≤ op16 then lastOpcode - (op1 - 1) else 20
  else 0

/-- The loop of `GetSigOpCount(bool)`.  Every instruction takes at least one byte, so `fuel`
is the number of bytes left. -/
def sigOpLoop (fAccurate : Bool) : (fuel lastOpcode : Nat) → CScript → Nat
  | 0, _, _ => 0
  | fuel + 1, lastOpcode, pc =>
    match getOp pc with
    | none => 0
    | some (opcode, _, rest) =>
      sigOps fAccurate lastOpcode opcode + sigOpLoop fAccurate fuel opcode rest

/-- `GetSigOpCount(bool fAccurate)`. -/
def getSigOpCount (fAccurate : Bool) (script : CScript) : Nat :=
  sigOpLoop fAccurate script.length opInvalidOpcode script

/-- `IsPayToScriptHash`: `OP_HASH160 <20 bytes> OP_EQUAL`. -/
def isPayToScriptHash (script : CScript) : Bool :=
  script.length == 23 && script[0]? == some opHash160 && script[1]? == some 0x14 &&
    script[22]? == some opEqual

/-- The last item a script of pushes leaves: `none` when it holds anything else. -/
def lastPush : (fuel : Nat) → (data : List UInt8) → CScript → Option (List UInt8)
  | 0, data, _ => some data
  | _ + 1, data, [] => some data
  | fuel + 1, _, pc =>
    match getOp pc with
    | none => none
    | some (opcode, vch, rest) => if op16 < opcode then none else lastPush fuel vch rest

/-- `GetSigOpCount(const CScript& scriptSig)`: through a script hash the script that counts is
the last item of `scriptSig`. -/
def getSigOpCountFor (scriptPubKey scriptSig : CScript) : Nat :=
  if !scriptPubKey.isPayToScriptHash then scriptPubKey.getSigOpCount true
  else
    match lastPush scriptSig.length [] scriptSig with
    | none => 0
    | some subscript => CScript.getSigOpCount true subscript

/-- The magnitude of a number as `CBigNum::getvch` writes it: least significant byte first,
with a zero byte on top where the sign bit would be set otherwise. -/
def numberBytes : (fuel : Nat) → Nat → List UInt8
  | 0, _ => []
  | fuel + 1, n =>
    if n = 0 then []
    else if n < 128 then [UInt8.ofNat n]
    else UInt8.ofNat (n % 256) :: if n / 256 = 0 then [0] else numberBytes fuel (n / 256)

/-- `CScript() << nHeight` for a height that is not negative. -/
def pushHeight (nHeight : Nat) : CScript :=
  if 1 ≤ nHeight ∧ nHeight ≤ 16 then [UInt8.ofNat (nHeight + (op1 - 1))]
  else
    let vch := numberBytes 8 nHeight
    UInt8.ofNat vch.length :: vch

end CScript

namespace CTransaction

/-- `GetLegacySigOpCount`. -/
def getLegacySigOpCount (tx : CTransaction) : Nat :=
  (tx.vin.map fun txin => txin.scriptSig.getSigOpCount false).sum +
    (tx.vout.map fun txout => txout.scriptPubKey.getSigOpCount false).sum

end CTransaction

end NoLimitCoin
