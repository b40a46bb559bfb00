import NoLimitCoin.Lib.Truncation
import NoLimitCoin.Retarget

/-!
# Compact targets

The compact form of a number is the size of its OpenSSL MPI form and the three top bytes of it, so
that going through it cuts the number to these bytes.  `GetNextTargetRequired` goes through it with
every target.

Results:
1. `setCompact_getCompact`: a number that fits goes to its three top bytes.
2. `getNextTargetRequired_bounds`: the next target is positive and not above the limit.
3. `compact_exact`: both, and the order of targets.
-/

namespace NoLimitCoin

namespace CBigNum

/-! ## Through the compact form -/

theorem signedBytes_eq {n : Nat} (hn : n ≠ 0) :
    (if Nat.log2 n % 8 = 7 then Nat.log2 n / 8 + 1 + 1 else Nat.log2 n / 8 + 1) =
      signedBytes n := by
  rw [signedBytes, if_neg hn]
  split <;> omega

/-- The three top bytes of the MPI form, with zeros behind a short one. -/
theorem top_eq (n : Nat) : (if signedBytes n ≤ 3 then n * 2 ^ (8 * (3 - signedBytes n))
    else n / 2 ^ (8 * (signedBytes n - 3))) =
      n / belowTop 3 n * 2 ^ (8 * (3 - signedBytes n)) := by
  rw [belowTop]
  split
  · next hle =>
    rw [Nat.sub_eq_zero_of_le hle, Nat.mul_zero, pow_zero, Nat.div_one]
  · next hlt =>
    rw [Nat.sub_eq_zero_of_le (Nat.le_of_not_le hlt), Nat.mul_zero, pow_zero, Nat.mul_one]

/-- The top bytes leave the sign bit free. -/
theorem top_lt (n : Nat) : n / belowTop 3 n * 2 ^ (8 * (3 - signedBytes n)) < 2 ^ 23 := by
  by_cases hle : signedBytes n ≤ 3
  · have hone : belowTop 3 n = 1 := by
      rw [belowTop, Nat.sub_eq_zero_of_le hle, Nat.mul_zero, pow_zero]
    have hlt := lt_of_signedBytes n
    have hmul : 2 * (n * 2 ^ (8 * (3 - signedBytes n))) < 2 ^ 24 := by
      calc 2 * (n * 2 ^ (8 * (3 - signedBytes n)))
          = 2 * n * 2 ^ (8 * (3 - signedBytes n)) := by rw [Nat.mul_assoc]
        _ < 2 ^ (8 * signedBytes n) * 2 ^ (8 * (3 - signedBytes n)) :=
            Nat.mul_lt_mul_of_pos_right hlt (Nat.two_pow_pos _)
        _ = 2 ^ 24 := by
            rw [← Nat.pow_add]
            congr 1
            omega
    rw [hone, Nat.div_one]
    omega
  · have hlt := div_belowTop_lt 3 n
    rw [Nat.sub_eq_zero_of_le (Nat.le_of_not_le hle), Nat.mul_zero, pow_zero, Nat.mul_one]
    omega

/-- The size of a number below 2^2039 fits into its byte. -/
theorem signedBytes_lt {n : Nat} (h : n < 2 ^ 2039) : signedBytes n < 256 := by
  by_cases hn : n = 0
  · rw [hn]
    decide
  · have hlog : Nat.log2 n < 2039 := (Nat.log2_lt hn).mpr h
    rw [signedBytes, if_neg hn]
    omega

theorem getCompact_eq {n : Nat} (hn : n ≠ 0) (h : n < 2 ^ 2039) : getCompact (n : Int) =
    signedBytes n * 2 ^ 24 + n / belowTop 3 n * 2 ^ (8 * (3 - signedBytes n)) := by
  have hbytes := signedBytes_lt h
  have htop := top_lt n
  unfold getCompact
  dsimp only
  rw [Int.natAbs_natCast, if_neg hn, signedBytes_eq hn, top_eq,
    if_neg (Int.not_lt.mpr (Int.natCast_nonneg n)), Nat.add_zero]
  exact Nat.mod_eq_of_lt (by omega)

/-- A number that fits goes to its three top bytes. -/
theorem setCompact_getCompact {n : Nat} (h : n < 2 ^ 2039) :
    setCompact (getCompact (n : Int)) = (truncate 3 n : Nat) := by
  by_cases hn : n = 0
  · rw [hn]
    rfl
  have htop := top_lt n
  rw [getCompact_eq hn h]
  generalize hm : n / belowTop 3 n * 2 ^ (8 * (3 - signedBytes n)) = m at htop ⊢
  have hsize : (signedBytes n * 2 ^ 24 + m) / 2 ^ 24 = signedBytes n := by omega
  have hmantissa : (signedBytes n * 2 ^ 24 + m) % 2 ^ 23 = m := by omega
  have hsign : (signedBytes n * 2 ^ 24 + m) / 2 ^ 23 % 2 = 0 := by omega
  unfold setCompact
  dsimp only
  rw [hsize, hmantissa, hsign, if_neg (by decide), ← hm]
  congr 1
  rw [truncate]
  by_cases hle : signedBytes n ≤ 3
  · rw [if_pos hle, Nat.mul_div_cancel _ (Nat.two_pow_pos _), belowTop,
      Nat.sub_eq_zero_of_le hle, Nat.mul_zero, pow_zero, Nat.mul_one]
  · rw [if_neg hle, Nat.sub_eq_zero_of_le (Nat.le_of_not_le hle), Nat.mul_zero, pow_zero,
      Nat.mul_one, belowTop]

/-- The compact form survives the cut. -/
theorem getCompact_truncate {n : Nat} (h : n < 2 ^ 2039) :
    getCompact ((truncate 3 n : Nat) : Int) = getCompact (n : Int) := by
  by_cases hn : n = 0
  · rw [hn]
    rfl
  have hne : truncate 3 n ≠ 0 := truncate_ne_zero (by decide) hn
  have hbytes : signedBytes (truncate 3 n) = signedBytes n := signedBytes_truncate (by decide) n
  have hbelow : belowTop 3 (truncate 3 n) = belowTop 3 n := by rw [belowTop, belowTop, hbytes]
  rw [getCompact_eq hne ((truncate_le 3 n).trans_lt h), getCompact_eq hn h, hbytes, hbelow]
  congr 2
  rw [truncate, Nat.mul_div_cancel _ (belowTop_pos 3 n)]

theorem setCompact_getCompact_int {x : Int} (hx : 0 ≤ x) (hlt : x < 2 ^ 2039) :
    setCompact (getCompact x) = (truncate 3 x.toNat : Nat) := by
  obtain ⟨n, rfl⟩ := Int.eq_ofNat_of_zero_le hx
  exact setCompact_getCompact (by exact_mod_cast hlt)

/-- Of two numbers the smaller one goes to the smaller one. -/
theorem setCompact_getCompact_mono {x₁ x₂ : Int} (hx : 0 ≤ x₁) (hle : x₁ ≤ x₂)
    (hlt : x₂ < 2 ^ 2039) :
    setCompact (getCompact x₁) ≤ setCompact (getCompact x₂) := by
  rw [setCompact_getCompact_int hx (hle.trans_lt hlt),
    setCompact_getCompact_int (hx.trans hle) hlt]
  exact Int.ofNat_le.mpr (truncate_mono (by decide) (Int.toNat_le_toNat hle))

/-- A number above zero goes to one above zero that is not larger. -/
theorem setCompact_getCompact_bounds {x : Int} (hx : 0 < x) (hlt : x < 2 ^ 2039) :
    0 < setCompact (getCompact x) ∧ setCompact (getCompact x) ≤ x := by
  obtain ⟨n, rfl⟩ := Int.eq_ofNat_of_zero_le hx.le
  rw [setCompact_getCompact (by exact_mod_cast hlt)]
  have hn : n ≠ 0 := fun hn => by
    rw [hn] at hx
    exact absurd hx (lt_irrefl _)
  exact ⟨Int.natCast_pos.mpr (Nat.pos_of_ne_zero (truncate_ne_zero (by decide) hn)),
    Int.ofNat_le.mpr (truncate_le 3 n)⟩

end CBigNum

/-! ## The next target -/

open CBigNum

theorem targetLimit_bounds (env : Env) (fProofOfStake : Bool) :
    0 < targetLimit env fProofOfStake ∧ targetLimit env fProofOfStake < 2 ^ 2039 := by
  unfold targetLimit bnProofOfStakeLimit Env.bnProofOfWorkLimit
  split
  · exact ⟨by decide, by decide +kernel⟩
  · split
    · exact ⟨by decide, by decide +kernel⟩
    · exact ⟨by decide, by decide +kernel⟩

/-- The quotient that is the new target if it is neither too small nor too large. -/
def newTarget (env : Env) (nBits : Nat) (nActualSpacing : Int) : Int :=
  let nInterval := env.nTargetTimespan.tdiv env.nTargetSpacing
  (setCompact nBits * ((nInterval - 1) * env.nTargetSpacing + nActualSpacing + nActualSpacing)).tdiv
    ((nInterval + 1) * env.nTargetSpacing)

/-- The two blocks whose spacing makes the next target, with the walk of `GetLastBlockIndex`. -/
structure SpacedBlocks (node : Node) (fProofOfStake : Bool) (indexLast indexPrev indexPrevPrev :
    CBlockIndex) : Prop where
  prev : getLastBlockIndex node fProofOfStake node.mapBlockIndex.size indexLast = indexPrev
  before : ∃ indexBefore, indexPrev.pprev.bind node.index? = some indexBefore ∧
    getLastBlockIndex node fProofOfStake node.mapBlockIndex.size indexBefore = indexPrevPrev
  second : indexPrevPrev.pprev ≠ none

section target

variable {env : Env} {node : Node} {indexLast indexPrev indexPrevPrev : CBlockIndex}
  {fProofOfStake : Bool}

theorem getNextTargetRequired_spaced
    (h : SpacedBlocks node fProofOfStake indexLast indexPrev indexPrevPrev) :
    getNextTargetRequired env node indexLast fProofOfStake =
      retarget env (targetLimit env fProofOfStake) indexPrev.nBits
        (indexPrev.getBlockTime - indexPrevPrev.getBlockTime) := by
  obtain ⟨hprev, ⟨indexBefore, hbefore, hprevPrev⟩, hsecond⟩ := h
  unfold getNextTargetRequired
  dsimp only
  rw [hprev, hbefore]
  dsimp only
  rw [hprevPrev, if_neg hsecond]
  rfl

/-- The target is the limit, or it comes from the spacing of two blocks. -/
theorem getNextTargetRequired_cases (env : Env) (node : Node) (indexLast : CBlockIndex)
    (fProofOfStake : Bool) :
    getNextTargetRequired env node indexLast fProofOfStake =
        getCompact (targetLimit env fProofOfStake) ∨
      ∃ indexPrev indexPrevPrev,
        SpacedBlocks node fProofOfStake indexLast indexPrev indexPrevPrev := by
  generalize hprev : getLastBlockIndex node fProofOfStake node.mapBlockIndex.size indexLast =
    indexPrev
  cases hbefore : indexPrev.pprev.bind node.index? with
  | none =>
    left
    unfold getNextTargetRequired
    dsimp only
    rw [hprev, hbefore]
    rfl
  | some indexBefore =>
    by_cases hfirst : (getLastBlockIndex node fProofOfStake node.mapBlockIndex.size
        indexBefore).pprev = none
    · left
      unfold getNextTargetRequired
      dsimp only
      rw [hprev, hbefore]
      dsimp only
      rw [if_pos hfirst]
      rfl
    · exact .inr ⟨indexPrev, _, hprev, ⟨indexBefore, hbefore, rfl⟩, hfirst⟩

/-- What a retarget starts from is above zero and not above the limit. -/
theorem retarget_eq (env : Env) (fProofOfStake : Bool) (nBits : Nat) (nActualSpacing : Int) :
    ∃ x, 0 < x ∧ x ≤ targetLimit env fProofOfStake ∧
      retarget env (targetLimit env fProofOfStake) nBits nActualSpacing = getCompact x := by
  unfold retarget
  dsimp only
  generalize (if nActualSpacing < 0 then env.nTargetSpacing else nActualSpacing) = nSpacing
  split
  · exact ⟨_, (targetLimit_bounds env fProofOfStake).1, le_refl _, rfl⟩
  · next hin =>
    obtain ⟨hpos, hle⟩ := not_or.mp hin
    exact ⟨_, not_le.mp hpos, not_lt.mp hle, rfl⟩

/-- The next target is positive and not above the limit. -/
theorem getNextTargetRequired_bounds (env : Env) (node : Node) (indexLast : CBlockIndex)
    (fProofOfStake : Bool) :
    0 < setCompact (getNextTargetRequired env node indexLast fProofOfStake) ∧
      setCompact (getNextTargetRequired env node indexLast fProofOfStake) ≤
        targetLimit env fProofOfStake := by
  obtain ⟨hpos, hlt⟩ := targetLimit_bounds env fProofOfStake
  rcases getNextTargetRequired_cases env node indexLast fProofOfStake with
    hlimit | ⟨indexPrev, indexPrevPrev, hspaced⟩
  · rw [hlimit]
    exact setCompact_getCompact_bounds hpos hlt
  · rw [getNextTargetRequired_spaced hspaced]
    obtain ⟨x, hx, hle, heq⟩ := retarget_eq env fProofOfStake indexPrev.nBits
      (indexPrev.getBlockTime - indexPrevPrev.getBlockTime)
    rw [heq]
    obtain ⟨hlow, hhigh⟩ := setCompact_getCompact_bounds hx (hle.trans_lt hlt)
    exact ⟨hlow, hhigh.trans hle⟩

end target

section order

variable {env : Env} {fProofOfStake : Bool} {nBits : Nat} {nSpacing₁ nSpacing₂ : Int}

/-- The constants of the retarget. -/
theorem retarget_constants (env : Env) :
    0 ≤ (env.nTargetTimespan.tdiv env.nTargetSpacing - 1) * env.nTargetSpacing ∧
      0 < (env.nTargetTimespan.tdiv env.nTargetSpacing + 1) * env.nTargetSpacing := by
  unfold Env.nTargetTimespan Env.nTargetSpacing
  split
  · exact ⟨by decide, by decide⟩
  · exact ⟨by decide, by decide⟩

/-- A larger spacing makes a larger quotient, as long as it is positive. -/
theorem newTarget_mono (hspacing : 0 ≤ nSpacing₁) (hle : nSpacing₁ ≤ nSpacing₂)
    (hpos : 0 < newTarget env nBits nSpacing₁) :
    newTarget env nBits nSpacing₁ ≤ newTarget env nBits nSpacing₂ := by
  obtain ⟨hfirst, hsecond⟩ := retarget_constants env
  unfold newTarget at hpos ⊢
  dsimp only at hpos ⊢
  generalize (env.nTargetTimespan.tdiv env.nTargetSpacing - 1) * env.nTargetSpacing = c at *
  generalize (env.nTargetTimespan.tdiv env.nTargetSpacing + 1) * env.nTargetSpacing = d at *
  have hbits : 0 ≤ setCompact nBits := by
    by_contra hneg
    have hproduct : setCompact nBits * (c + nSpacing₁ + nSpacing₁) ≤ 0 :=
      Int.mul_nonpos_of_nonpos_of_nonneg (by omega) (by omega)
    have hquotient := Int.tdiv_nonneg (Int.neg_nonneg_of_nonpos hproduct) hsecond.le
    rw [Int.neg_tdiv] at hquotient
    omega
  have hless : setCompact nBits * (c + nSpacing₁ + nSpacing₁) ≤
      setCompact nBits * (c + nSpacing₂ + nSpacing₂) :=
    Int.mul_le_mul_of_nonneg_left (by omega) hbits
  have hnonneg : 0 ≤ setCompact nBits * (c + nSpacing₁ + nSpacing₁) :=
    Int.mul_nonneg hbits (by omega)
  rw [Int.tdiv_eq_ediv_of_nonneg hnonneg, Int.tdiv_eq_ediv_of_nonneg (hnonneg.trans hless)]
  exact Int.ediv_le_ediv hsecond hless

theorem retarget_of_nonneg {nSpacing : Int} (hspacing : 0 ≤ nSpacing) :
    retarget env (targetLimit env fProofOfStake) nBits nSpacing =
      getCompact (if newTarget env nBits nSpacing ≤ 0 ∨
          targetLimit env fProofOfStake < newTarget env nBits nSpacing then
        targetLimit env fProofOfStake else newTarget env nBits nSpacing) := by
  unfold retarget newTarget
  dsimp only
  rw [if_neg (not_lt.mpr hspacing)]

/-- A larger spacing never makes a smaller target, unless only the smaller one is reset to the
limit because its quotient is zero. -/
theorem retarget_mono (hspacing : 0 ≤ nSpacing₁) (hle : nSpacing₁ ≤ nSpacing₂)
    (hreset : 0 < newTarget env nBits nSpacing₂ → 0 < newTarget env nBits nSpacing₁) :
    setCompact (retarget env (targetLimit env fProofOfStake) nBits nSpacing₁) ≤
      setCompact (retarget env (targetLimit env fProofOfStake) nBits nSpacing₂) := by
  obtain ⟨hlimit, hlt⟩ := targetLimit_bounds env fProofOfStake
  rw [retarget_of_nonneg hspacing, retarget_of_nonneg (hspacing.trans hle)]
  by_cases hpos : 0 < newTarget env nBits nSpacing₁
  · have hmono := newTarget_mono hspacing hle hpos
    generalize newTarget env nBits nSpacing₁ = q₁ at *
    generalize newTarget env nBits nSpacing₂ = q₂ at *
    refine setCompact_getCompact_mono ?_ ?_ ?_
    · split <;> omega
    · split <;> split <;> omega
    · split <;> omega
  · have hnot : ¬ 0 < newTarget env nBits nSpacing₂ := fun h => hpos (hreset h)
    rw [if_pos (.inl (not_lt.mp hpos)), if_pos (.inl (not_lt.mp hnot))]

end order

/-- Compact targets are handled exactly, for numbers below 2^2039: a number goes to its three top
bytes, which is its own compact form, and the order is kept; the next target is positive and not
above the limit, and a larger spacing never makes a smaller one, unless a reset comes in between. -/
theorem compact_exact :
    (∀ x : Int, 0 ≤ x → x < 2 ^ 2039 →
      setCompact (getCompact x) ≤ x ∧
      x - setCompact (getCompact x) < 2 ^ (8 * (signedBytes x.toNat - 3)) ∧
      getCompact (setCompact (getCompact x)) = getCompact x) ∧
    (∀ x₁ x₂ : Int, 0 ≤ x₁ → x₁ ≤ x₂ → x₂ < 2 ^ 2039 →
      setCompact (getCompact x₁) ≤ setCompact (getCompact x₂)) ∧
    (∀ env node indexLast fProofOfStake,
      0 < setCompact (getNextTargetRequired env node indexLast fProofOfStake) ∧
      setCompact (getNextTargetRequired env node indexLast fProofOfStake) ≤
        targetLimit env fProofOfStake) ∧
    (∀ env fProofOfStake node₁ node₂ indexLast₁ indexPrev₁ indexPrevPrev₁
      indexLast₂ indexPrev₂ indexPrevPrev₂,
      SpacedBlocks node₁ fProofOfStake indexLast₁ indexPrev₁ indexPrevPrev₁ →
      SpacedBlocks node₂ fProofOfStake indexLast₂ indexPrev₂ indexPrevPrev₂ →
      indexPrev₁.nBits = indexPrev₂.nBits →
      0 ≤ indexPrev₁.getBlockTime - indexPrevPrev₁.getBlockTime →
      indexPrev₁.getBlockTime - indexPrevPrev₁.getBlockTime ≤
        indexPrev₂.getBlockTime - indexPrevPrev₂.getBlockTime →
      (0 < newTarget env indexPrev₂.nBits
          (indexPrev₂.getBlockTime - indexPrevPrev₂.getBlockTime) →
        0 < newTarget env indexPrev₁.nBits
          (indexPrev₁.getBlockTime - indexPrevPrev₁.getBlockTime)) →
      setCompact (getNextTargetRequired env node₁ indexLast₁ fProofOfStake) ≤
        setCompact (getNextTargetRequired env node₂ indexLast₂ fProofOfStake)) := by
  refine ⟨fun x hx hlt => ?_, fun x₁ x₂ hx hle hlt => setCompact_getCompact_mono hx hle hlt,
    getNextTargetRequired_bounds, ?_⟩
  · obtain ⟨n, rfl⟩ := Int.eq_ofNat_of_zero_le hx
    have hn : n < 2 ^ 2039 := by exact_mod_cast hlt
    have hle := truncate_le 3 n
    have hsub := sub_truncate_lt 3 n
    rw [setCompact_getCompact hn, Int.toNat_natCast]
    refine ⟨Int.ofNat_le.mpr hle, ?_, getCompact_truncate hn⟩
    rw [← Int.natCast_sub hle]
    exact_mod_cast hsub
  · intro env fProofOfStake node₁ node₂ indexLast₁ indexPrev₁ indexPrevPrev₁ indexLast₂ indexPrev₂
      indexPrevPrev₂ h₁ h₂ hbits hspacing hle hreset
    rw [getNextTargetRequired_spaced h₁, getNextTargetRequired_spaced h₂, hbits]
    rw [hbits] at hreset
    exact retarget_mono hspacing hle hreset

/-- At 2^2039 the size is shifted out of the compact form; and a spacing of a second makes a
smaller target than one of minus a second, or than one of zero whose quotient is reset. -/
theorem compact_inexact :
    (¬ ((2 ^ 2039 : Int) - setCompact (getCompact (2 ^ 2039)) <
      2 ^ (8 * (signedBytes (2 ^ 2039) - 3)))) ∧
    setCompact (retarget mainNet (targetLimit mainNet false) 0x1c00ffff 1) <
      setCompact (retarget mainNet (targetLimit mainNet false) 0x1c00ffff (-1)) ∧
    setCompact (retarget mainNet (targetLimit mainNet false) 0x01010000 120) <
      setCompact (retarget mainNet (targetLimit mainNet false) 0x01010000 0) := by
  exact ⟨by decide +kernel, by decide +kernel, by decide +kernel⟩

end NoLimitCoin
