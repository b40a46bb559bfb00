import NoLimitCoin.BigNum
import NoLimitCoin.Bytes
import NoLimitCoin.ScriptBuilder
import NoLimitCoin.Lib.SignMagnitude

/-!
# Big numbers and their bytes

`CBigNum` of `bignum.h` goes through the MPI form of OpenSSL: four bytes with the size, then the
bytes of a number with a sign bit.  Three functions emit that form byte by byte themselves.

Results:
1. `setint64_eq`, `setuint64_eq`, `setuint256_eq`: the emitted bytes stand for the number.
2. `getuint64_eq`, `getuint256_eq`: the low bytes of the magnitude are read.
3. `getvch_setvch`: the shortest bytes of the number, as long as their size fits.
4. `castToBigNum_eq`: a short script number keeps its value.
-/

namespace NoLimitCoin

namespace CBigNum

/-! ## The MPI form -/

/-- Four bytes with a size, as the source writes them. -/
def mpiSize (nSize : Nat) : List UInt8 :=
  [UInt8.ofNat (nSize / 2 ^ 24 % 256), UInt8.ofNat (nSize / 2 ^ 16 % 256),
    UInt8.ofNat (nSize / 2 ^ 8 % 256), UInt8.ofNat (nSize % 256)]

/-- `BN_bn2mpi`. -/
def bn2mpi (bn : Int) : List UInt8 :=
  mpiSize (SignMagnitude.bytes bn).length ++ SignMagnitude.bytes bn

/-- `BN_mpi2bn`, with the length as the `int` that it takes; `none` where it returns `NULL`. -/
def mpi2bn (d : List UInt8) (n : Int) : Option Int :=
  if n < 4 then none
  else if (BigEndian.value (d.take 4) : Int) + 4 ≠ n then none
  else some (SignMagnitude.value ((d.drop 4).take (BigEndian.value (d.take 4))))

/-- A call of `BN_mpi2bn` on a buffer, into a number that stays as it is when it fails. -/
def readMpi (bn : Int) (pch : List UInt8) : Int :=
  (mpi2bn pch (Int.bmod pch.length (2 ^ 32))).getD bn

/-! ## Integers -/

/-- The loop of `setint64`, `setuint64` and `setuint256` over the bytes, the top one first. -/
def emit (fNegative : Bool) : (fLeadingZeroes : Bool) → List UInt8 → List UInt8
  | _, [] => []
  | false, c :: src => c :: emit fNegative false src
  | true, c :: src =>
    if c = 0 then emit fNegative true src
    else if 0x80 ≤ c then (if fNegative then 0x80 else 0) :: c :: emit fNegative false src
    else (if fNegative then c ||| 0x80 else c) :: emit fNegative false src

/-- What `c = (n >> 56) & 0xff; n <<= 8` shows of a 64-bit number. -/
def shiftedBytes : (i : Nat) → (n : Nat) → List UInt8
  | 0, _ => []
  | i + 1, n => UInt8.ofNat (n / 2 ^ 56 % 256) :: shiftedBytes i (n * 2 ^ 8 % 2 ^ 64)

/-- `setint64`. -/
def setint64 (bn : Int) (sn : Int) : Int :=
  let fNegative := decide (sn < 0)
  let n := if sn < 0 then (-(sn + 1)).toNat + 1 else sn.toNat
  let p := emit fNegative true (shiftedBytes 8 n)
  readMpi bn (mpiSize p.length ++ p)

/-- `setuint64`. -/
def setuint64 (bn : Int) (n : Nat) : Int :=
  let p := emit false true (shiftedBytes 8 n)
  readMpi bn (mpiSize p.length ++ p)

/-- `setuint256`, which reads the memory of the number from its end. -/
def setuint256 (bn : Int) (n : Uint256) : Int :=
  let p := emit false true (leBytes 32 n).reverse
  readMpi bn (mpiSize p.length ++ p)

/-- `getuint64` and `getuint256`, for a type of `size` bytes. -/
def getuint (size : Nat) (bn : Int) : Nat :=
  let vch := bn2mpi bn
  if vch.length < 4 then 0
  else
    let vch := if 4 < vch.length then vch.modify 4 (· &&& 0x7f) else vch
    leNat ((vch.drop 4).reverse.take size)

def getuint64 (bn : Int) : Nat := getuint 8 bn

def getuint256 (bn : Int) : Uint256 := getuint 32 bn

/-! ## Byte vectors -/

/-- `setvch`. -/
def setvch (bn : Int) (vch : List UInt8) : Int :=
  readMpi bn (mpiSize (vch.length % 2 ^ 32) ++ vch.reverse)

/-- `getvch`. -/
def getvch (bn : Int) : List UInt8 :=
  let vch := bn2mpi bn
  if vch.length ≤ 4 then [] else (vch.drop 4).reverse

/-- `CBigNum(vch)`. -/
def ofVch (vch : List UInt8) : Int := setvch 0 vch

/-- `CastToBigNum`. -/
def castToBigNum (vch : List UInt8) : Except Interpreter.Fault Int :=
  if Interpreter.nMaxNumSize < vch.length then .error .overflow
  else .ok (ofVch (getvch (ofVch vch)))

/-- The number that little-endian bytes with a sign bit stand for. -/
def numberOf (vch : List UInt8) : Int := SignMagnitude.value vch.reverse

/-! ## Reading the form -/

theorem length_mpiSize (nSize : Nat) : (mpiSize nSize).length = 4 := rfl

theorem value_mpiSize {nSize : Nat} (h : nSize < 2 ^ 32) :
    BigEndian.value (mpiSize nSize) = nSize := by
  have hbyte (n : Nat) : (UInt8.ofNat (n % 256)).toNat = n % 256 :=
    SignMagnitude.toNat_ofDigit (Nat.mod_lt _ (by decide))
  simp only [mpiSize, BigEndian.value, hbyte, List.length_cons, List.length_nil]
  omega

/-- A form with the right size is read as its number. -/
theorem readMpi_eq (bn : Int) {d : List UInt8} (h : d.length + 4 < 2 ^ 31) :
    readMpi bn (mpiSize d.length ++ d) = SignMagnitude.value d := by
  have hlength : (mpiSize d.length ++ d).length = d.length + 4 := by
    rw [List.length_append, length_mpiSize, Nat.add_comm]
  have htake : (mpiSize d.length ++ d).take 4 = mpiSize d.length := List.take_left' rfl
  have hdrop : (mpiSize d.length ++ d).drop 4 = d := List.drop_left' rfl
  have hsize : BigEndian.value (mpiSize d.length) = d.length := value_mpiSize (by omega)
  rw [readMpi, hlength, Int.bmod_eq_of_le (by omega) (by omega), mpi2bn, if_neg (by omega), htake,
    hdrop, hsize, if_neg (by omega), List.take_length]
  rfl

/-! ## The emitted bytes -/

theorem emit_false (fNegative : Bool) (src : List UInt8) : emit fNegative false src = src := by
  induction src with
  | nil => rfl
  | cons c src ih => rw [emit, ih]

theorem length_emit_le (fNegative : Bool) (src : List UInt8) :
    (emit fNegative true src).length ≤ src.length + 1 := by
  induction src with
  | nil => exact Nat.zero_le _
  | cons c src ih =>
    rw [emit]
    split
    · exact ih.trans (Nat.le_succ _)
    · split
      · rw [emit_false]
        exact Nat.le_refl _
      · rw [emit_false]
        exact Nat.le_succ _

/-- The bytes that the loop emits stand for the number, with the sign in front. -/
theorem value_emit (fNegative : Bool) (src : List UInt8) :
    SignMagnitude.value (emit fNegative true src) =
      if fNegative then -(BigEndian.value src : Int) else BigEndian.value src := by
  induction src with
  | nil =>
    cases fNegative with
    | false => rfl
    | true => rfl
  | cons c src ih =>
    rw [emit]
    split
    · next hzero => rw [ih, hzero, SignMagnitude.value_zero_cons]
    · split
      · -- the top bit is taken: the sign needs a byte of its own
        have htop : SignMagnitude.topSet (0 :: c :: src) = false := rfl
        rw [emit_false, ← SignMagnitude.value_zero_cons (c :: src)]
        cases fNegative with
        | false => exact SignMagnitude.value_of_not_topSet htop
        | true => exact SignMagnitude.value_setSign htop
      · next hlow =>
        have htop : SignMagnitude.topSet (c :: src) = false := decide_eq_false hlow
        rw [emit_false]
        cases fNegative with
        | false => exact SignMagnitude.value_of_not_topSet htop
        | true => exact SignMagnitude.value_setSign htop

theorem length_shiftedBytes (i n : Nat) : (shiftedBytes i n).length = i := by
  induction i generalizing n with
  | zero => rfl
  | succ i ih => rw [shiftedBytes, List.length_cons, ih]

/-- The first bytes of a 64-bit number. -/
theorem value_shiftedBytes {i n : Nat} (hi : i ≤ 8) (hn : n < 2 ^ 64) :
    BigEndian.value (shiftedBytes i n) = n / 2 ^ (64 - 8 * i) := by
  induction i generalizing n with
  | zero => exact (Nat.div_eq_of_lt hn).symm
  | succ i ih =>
    have hshift : n * 2 ^ 8 % 2 ^ 64 / 2 ^ (64 - 8 * i) = n % 2 ^ 56 / 2 ^ (56 - 8 * i) := by
      rw [show n * 2 ^ 8 % 2 ^ 64 = n % 2 ^ 56 * 2 ^ 8 by omega,
        show 64 - 8 * i = 56 - 8 * i + 8 by omega, Nat.pow_add,
        Nat.mul_div_mul_right _ _ (by decide)]
    have hpow : (2 : Nat) ^ 56 = 2 ^ (56 - 8 * i) * 256 ^ i := by
      rw [show (256 : Nat) = 2 ^ 8 by rfl, ← Nat.pow_mul, ← Nat.pow_add]
      congr 1
      omega
    have hsplit : n = n % 2 ^ 56 + 2 ^ (56 - 8 * i) * (n / 2 ^ 56 * 256 ^ i) := by
      rw [Nat.mul_left_comm, ← hpow, Nat.mul_comm]
      exact (Nat.mod_add_div n _).symm
    rw [shiftedBytes, BigEndian.value, ih (by omega) (Nat.mod_lt _ (by decide)),
      length_shiftedBytes, SignMagnitude.toNat_ofDigit (Nat.mod_lt _ (by decide)), hshift,
      show 64 - 8 * (i + 1) = 56 - 8 * i by omega, Nat.mod_eq_of_lt (by omega : n / 2 ^ 56 < 256)]
    conv_rhs => rw [hsplit, Nat.add_mul_div_left _ _ (Nat.two_pow_pos _)]
    rw [Nat.add_comm]

theorem value_shiftedBytes_eight {n : Nat} (hn : n < 2 ^ 64) :
    BigEndian.value (shiftedBytes 8 n) = n := by
  rw [value_shiftedBytes (Nat.le_refl 8) hn]
  exact Nat.div_one n

/-- `setint64` gives the number, the minimum among them. -/
theorem setint64_eq (bn : Int) {sn : Int} (hlow : -2 ^ 63 ≤ sn) (hhigh : sn < 2 ^ 63) :
    setint64 bn sn = sn := by
  have hbytes (fNegative : Bool) (n : Nat) :
      (emit fNegative true (shiftedBytes 8 n)).length + 4 < 2 ^ 31 := by
    have hlength := length_emit_le fNegative (shiftedBytes 8 n)
    rw [length_shiftedBytes] at hlength
    omega
  unfold setint64
  dsimp only
  rw [readMpi_eq bn (hbytes _ _), value_emit, value_shiftedBytes_eight (by split <;> omega)]
  by_cases hneg : sn < 0
  · rw [if_pos (decide_eq_true hneg), if_pos hneg]
    omega
  · rw [if_neg (by rw [decide_eq_false hneg]; decide), if_neg hneg]
    omega

theorem setuint64_eq (bn : Int) {n : Nat} (h : n < 2 ^ 64) : setuint64 bn n = n := by
  have hlength := length_emit_le false (shiftedBytes 8 n)
  rw [length_shiftedBytes] at hlength
  unfold setuint64
  dsimp only
  rw [readMpi_eq bn (by omega), value_emit, value_shiftedBytes_eight h]
  rfl

theorem setuint256_eq (bn : Int) {n : Uint256} (h : n < 2 ^ 256) : setuint256 bn n = n := by
  have hlength := length_emit_le false (leBytes 32 n).reverse
  rw [List.length_reverse, length_leBytes] at hlength
  have hvalue : BigEndian.value (leBytes 32 n).reverse = n := by
    rw [← leNat_eq_value, leNat_leBytes]
    exact Nat.mod_eq_of_lt h
  unfold setuint256
  dsimp only
  rw [readMpi_eq bn (by omega), value_emit, hvalue]
  rfl

/-! ## Reading the magnitude -/

theorem drop_bn2mpi (bn : Int) : (bn2mpi bn).drop 4 = SignMagnitude.bytes bn := List.drop_left' rfl

theorem length_bn2mpi (bn : Int) : (bn2mpi bn).length = (SignMagnitude.bytes bn).length + 4 := by
  rw [bn2mpi, List.length_append, length_mpiSize, Nat.add_comm]

/-- The low bytes of a number. -/
theorem leNat_take_reverse (d : List UInt8) (size : Nat) :
    leNat (d.reverse.take size) = BigEndian.value d % 256 ^ size := by
  rw [leNat_eq_value, List.take_reverse, List.reverse_reverse]
  by_cases hsize : size ≤ d.length
  · have hlow : (d.drop (d.length - size)).length = size := by
      rw [List.length_drop]
      omega
    conv_rhs => rw [← List.take_append_drop (d.length - size) d, BigEndian.value_append, hlow]
    have hlt := BigEndian.value_lt (d.drop (d.length - size))
    rw [hlow] at hlt
    rw [Nat.add_comm, Nat.add_mul_mod_self_right, Nat.mod_eq_of_lt hlt]
  · have hle : 256 ^ d.length ≤ 256 ^ size := Nat.pow_le_pow_right (by decide) (by omega)
    rw [Nat.sub_eq_zero_of_le (by omega), List.drop_zero,
      Nat.mod_eq_of_lt ((BigEndian.value_lt d).trans_le hle)]

/-- The sign is cleared before the bytes are read. -/
theorem getuint_eq (size : Nat) (bn : Int) : getuint size bn = bn.natAbs % 256 ^ size := by
  have hclear : (if 4 < (bn2mpi bn).length then (bn2mpi bn).modify 4 (· &&& 0x7f)
      else bn2mpi bn).drop 4 = SignMagnitude.clearSign (SignMagnitude.bytes bn) := by
    unfold bn2mpi
    cases SignMagnitude.bytes bn with
    | nil => rfl
    | cons b d =>
      rw [if_pos (by rw [List.length_append, length_mpiSize, List.length_cons]; omega)]
      rfl
  unfold getuint
  dsimp only
  rw [if_neg (by rw [length_bn2mpi]; omega), hclear, leNat_take_reverse,
    SignMagnitude.clearSign_bytes]

theorem getuint64_eq (bn : Int) : getuint64 bn = getUint64 bn := by
  rw [getuint64, getuint_eq, getUint64, show (256 : Nat) ^ 8 = 2 ^ 64 by decide]

theorem getuint256_eq (bn : Int) : getuint256 bn = getUint256 bn := by
  rw [getuint256, getuint_eq, getUint256, show (256 : Nat) ^ 32 = 2 ^ 256 by decide]

/-! ## Vectors -/

theorem getvch_eq (bn : Int) : getvch bn = (SignMagnitude.bytes bn).reverse := by
  unfold getvch
  dsimp only
  rw [drop_bn2mpi]
  split
  · next hle =>
    rw [length_bn2mpi] at hle
    rw [List.eq_nil_of_length_eq_zero (by omega : (SignMagnitude.bytes bn).length = 0)]
    rfl
  · rfl

/-- A vector whose size fits is read as its number. -/
theorem setvch_eq (bn : Int) {vch : List UInt8} (h : vch.length + 4 < 2 ^ 31) :
    setvch bn vch = numberOf vch := by
  have hread := @readMpi_eq bn vch.reverse (by rw [List.length_reverse]; exact h)
  rw [List.length_reverse] at hread
  rw [setvch, Nat.mod_eq_of_lt (by omega), hread, numberOf]

theorem numberOf_getvch (bn : Int) : numberOf (getvch bn) = bn := by
  rw [numberOf, getvch_eq, List.reverse_reverse, SignMagnitude.value_bytes]

theorem getvch_injective : Function.Injective getvch := fun bn bn' h => by
  rw [← numberOf_getvch bn, h, numberOf_getvch]

theorem getvch_zero : getvch 0 = [] := by
  rw [getvch_eq, SignMagnitude.bytes_zero]
  rfl

/-- The bytes stand for the number, and no others as short do. -/
structure IsMinimal (vch : List UInt8) (bn : Int) : Prop where
  number : numberOf vch = bn
  short : ∀ other, numberOf other = bn → vch.length ≤ other.length
  unique : ∀ other, numberOf other = bn → other.length ≤ vch.length → other = vch

theorem isMinimal_getvch (bn : Int) : IsMinimal (getvch bn) bn := by
  refine ⟨numberOf_getvch bn, fun other hother => ?_, fun other hother hlength => ?_⟩
  · have hle := SignMagnitude.length_bytes_le other.reverse
    rw [getvch_eq, List.length_reverse, ← hother]
    rwa [List.length_reverse] at hle
  · rw [getvch_eq, List.length_reverse] at hlength
    rw [getvch_eq, ← SignMagnitude.bytes_unique hother (by rw [List.length_reverse]; exact hlength),
      List.reverse_reverse]

/-- A vector becomes the shortest one of its number. -/
theorem getvch_setvch (bn : Int) {vch : List UInt8} (h : vch.length + 4 < 2 ^ 31) :
    IsMinimal (getvch (setvch bn vch)) (numberOf vch) := by
  rw [setvch_eq bn h]
  exact isMinimal_getvch _

theorem castToBigNum_eq (vch : List UInt8) : castToBigNum vch =
    if Interpreter.nMaxNumSize < vch.length then .error .overflow else .ok (numberOf vch) := by
  unfold castToBigNum
  split
  · rfl
  · next hshort =>
    have hle : vch.length ≤ 4 := Nat.not_lt.mp hshort
    have hminimal := (isMinimal_getvch (numberOf vch)).short vch rfl
    rw [ofVch, ofVch, setvch_eq 0 (by omega : vch.length + 4 < 2 ^ 31), setvch_eq 0 (by omega),
      numberOf_getvch]

/-! ## The conversions as numbers -/

theorem ofLeBytes_eq_value (vch : List UInt8) : ofLeBytes vch = BigEndian.value vch.reverse := by
  rw [← leNat_eq_value]
  induction vch with
  | nil => rfl
  | cons b vch ih => rw [ofLeBytes, leNat, ih]

/-- The sign bit of a vector, by the size of the number without regard to it. -/
theorem numberOf_eq (vch : List UInt8) : numberOf vch = Interpreter.setvch vch := by
  unfold numberOf Interpreter.setvch
  dsimp only
  rw [ofLeBytes_eq_value]
  cases hreverse : vch.reverse with
  | nil =>
    obtain rfl := List.reverse_eq_nil_iff.mp hreverse
    rfl
  | cons b d =>
    have hlength : vch.length = d.length + 1 := by
      rw [← List.length_reverse, hreverse, List.length_cons]
    have hne : vch ≠ [] := by
      rintro rfl
      cases hreverse
    have hsign : 2 ^ (8 * vch.length - 1) = 128 * 256 ^ d.length := by
      rw [hlength, show (256 : Nat) = 2 ^ 8 by rfl, ← Nat.pow_mul,
        show 8 * (d.length + 1) - 1 = 7 + 8 * d.length by omega, Nat.pow_add]
    have hrest := BigEndian.value_lt d
    have htopbit : (0x80 : UInt8).toNat = 128 := rfl
    rw [hsign, BigEndian.value]
    unfold SignMagnitude.value
    by_cases htop : 0x80 ≤ b
    · have hb : 128 ≤ b.toNat := UInt8.le_iff_toNat_le.mp htop
      have hmul := Nat.mul_le_mul_right (256 ^ d.length) hb
      have hclear : (b &&& 0x7f).toNat = b.toNat - 128 := by
        have hlt := b.toNat_lt
        rw [SignMagnitude.toNat_clearTop]
        omega
      rw [if_pos (show SignMagnitude.topSet (b :: d) = true from decide_eq_true htop),
        if_pos ⟨hne, by omega⟩, SignMagnitude.clearSign, BigEndian.value, hclear, Nat.sub_mul]
      congr 2
      omega
    · have hb : b.toNat < 128 := UInt8.lt_iff_toNat_lt.mp (UInt8.not_le.mp htop)
      have hmul := Nat.mul_le_mul_right (256 ^ d.length) (Nat.succ_le_of_lt hb)
      rw [Nat.succ_mul] at hmul
      rw [if_neg (show ¬ SignMagnitude.topSet (b :: d) = true from
          fun h => htop (of_decide_eq_true h)),
        if_neg (by rintro ⟨-, hle⟩; omega), BigEndian.value]

/-- The interpreter's numbers are those of the source. -/
theorem interpreter_getvch (bn : Int) : Interpreter.getvch bn = getvch bn := by
  refine (isMinimal_getvch bn).unique _ ?_ ?_
  · rw [numberOf_eq, Interpreter.setvch_getvch]
  · refine Interpreter.length_getvch_le bn ?_
    rw [← numberOf_eq, numberOf_getvch]

theorem interpreter_castToBigNum (vch : List UInt8) :
    Interpreter.castToBigNum vch = castToBigNum vch := by
  rw [castToBigNum_eq, Interpreter.castToBigNum, numberOf_eq]

/-! ## Long vectors -/

/-- From 2^31 - 4 bytes on, the length of the form does not fit into an `int`. -/
theorem setvch_long (bn : Int) {vch : List UInt8} (hlow : 2 ^ 31 ≤ vch.length + 4)
    (hhigh : vch.length + 4 < 2 ^ 32) : setvch bn vch = bn := by
  have hlength : (mpiSize (vch.length % 2 ^ 32) ++ vch.reverse).length = vch.length + 4 := by
    rw [List.length_append, length_mpiSize, List.length_reverse, Nat.add_comm]
  have hneg : Int.bmod ((vch.length + 4 : Nat) : Int) (2 ^ 32) < 4 := by
    rw [Int.bmod_def]
    split
    · omega
    · omega
  rw [setvch, readMpi, hlength, mpi2bn, if_pos hneg]
  rfl

theorem numberOf_replicate_one {n : Nat} (h : n ≠ 0) :
    numberOf (List.replicate n 1) ≠ 0 := by
  obtain ⟨k, rfl⟩ := Nat.exists_eq_succ_of_ne_zero h
  have htop : SignMagnitude.topSet ((1 : UInt8) :: List.replicate k 1) = false := rfl
  have hpos : 0 < BigEndian.value ((1 : UInt8) :: List.replicate k 1) :=
    BigEndian.value_pos_iff.mpr ⟨1, List.mem_cons_self, by decide⟩
  rw [numberOf, List.reverse_replicate, List.replicate_succ,
    SignMagnitude.value_of_not_topSet htop]
  omega

/-- The claim that every vector becomes the shortest one of its number is false. -/
theorem not_getvch_setvch : ¬ ∀ vch, IsMinimal (getvch (ofVch vch)) (numberOf vch) := by
  intro hall
  have hnumber := (hall (List.replicate (2 ^ 31) 1)).number
  have hlength : (List.replicate (2 ^ 31) (1 : UInt8)).length = 2 ^ 31 := List.length_replicate
  rw [ofVch, setvch_long 0 (by rw [hlength]; decide) (by rw [hlength]; decide),
    numberOf_getvch] at hnumber
  exact numberOf_replicate_one (by decide) hnumber.symm

/-- The conversions are inverse to each other. -/
theorem conversions_inverse :
    (∀ bn sn : Int, -2 ^ 63 ≤ sn → sn < 2 ^ 63 → setint64 bn sn = sn) ∧
    (∀ (bn : Int) (n : Nat), n < 2 ^ 64 → getuint64 (setuint64 bn n) = n) ∧
    (∀ (bn : Int) (n : Uint256), n < 2 ^ 256 → getuint256 (setuint256 bn n) = n) ∧
    (∀ bn : Int, 0 ≤ bn → (getuint256 bn : Int) = bn % 2 ^ 256) ∧
    (∀ (bn : Int) (vch : List UInt8), vch.length + 4 < 2 ^ 31 →
      IsMinimal (getvch (setvch bn vch)) (numberOf vch)) ∧
    getvch 0 = [] ∧ Function.Injective getvch ∧
    ∀ vch : List UInt8, vch.length ≤ 4 → castToBigNum vch = .ok (numberOf vch) := by
  refine ⟨fun bn sn => setint64_eq bn, fun bn n h => ?_, fun bn n h => ?_, fun bn h => ?_,
    fun bn vch => getvch_setvch bn, getvch_zero, getvch_injective, fun vch h => ?_⟩
  · rw [setuint64_eq bn h, getuint64_eq, getUint64, Int.natAbs_natCast]
    exact Nat.mod_eq_of_lt h
  · rw [setuint256_eq bn h, getuint256_eq, getUint256, Int.natAbs_natCast]
    exact Nat.mod_eq_of_lt h
  · rw [getuint256_eq, getUint256, Int.natCast_mod, Int.natAbs_of_nonneg h]
    rfl
  · rw [castToBigNum_eq]
    exact if_neg (Nat.not_lt.mpr h)

theorem conversions_inverse_minimum : setint64 0 (-2 ^ 63) = -2 ^ 63 :=
  conversions_inverse.1 0 (-2 ^ 63) (by decide) (by decide)

end CBigNum

end NoLimitCoin
