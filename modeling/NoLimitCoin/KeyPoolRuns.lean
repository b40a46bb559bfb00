import NoLimitCoin.KeyPool

/-!
# Runs of the key pool

Every function of the key pool keeps the invariant as long as no record is written under an
index that is reserved, and no key that has been kept is handed out as the default key.

Results:

1. `topUpKeyPool_fills`, `newKeyPool_ok`, `reserveKey_cases` and so on: the functions one by one.
2. `keyPool_safe`: the pool is safe in every run whose calls all meet the condition.
3. `not_keyPool_safe`: without it an index is reserved and in the set at the same time.
-/

namespace NoLimitCoin

namespace KeyPool

open Prog CWallet

/-! ## Filling the pool -/

theorem nextIndex_pos {s : Finset Int} (h : ∀ i ∈ s, 1 ≤ i) : 1 ≤ nextIndex s := by
  unfold nextIndex
  split
  · next hs =>
    have := h _ (s.max'_mem hs)
    omega
  · exact Int.le_refl 1

theorem lt_nextIndex {s : Finset Int} {i : Int} (h : i ∈ s) : i < nextIndex s := by
  unfold nextIndex
  rw [dif_pos ⟨i, h⟩]
  exact Int.lt_add_one_of_le (s.le_max' i h)

theorem nextIndex_insert (s : Finset Int) :
    nextIndex (insert (nextIndex s) s) = nextIndex s + 1 := by
  have hne : (insert (nextIndex s) s).Nonempty := ⟨_, Finset.mem_insert_self _ _⟩
  have hmax : (insert (nextIndex s) s).max' hne = nextIndex s := by
    refine le_antisymm (Finset.max'_le _ _ _ fun i hi => ?_)
      (Finset.le_max' _ _ (Finset.mem_insert_self _ _))
    rcases Finset.mem_insert.mp hi with rfl | hi
    · exact le_refl _
    · exact (lt_nextIndex hi).le
  conv_lhs => rw [nextIndex, dif_pos hne, hmax]

/-- The indices that filling the pool up to `nTargetSize` writes are not reserved. -/
def Fillable (w : CWallet) (nTargetSize : Nat) : Prop :=
  ∀ k : Nat, k < nTargetSize + 1 - w.setKeyPool.card → (∀ j ≤ k, w.io j = true) →
    w.Unreserved (nextIndex w.setKeyPool + k)

/-- Filling the pool keeps the invariant, whether it succeeds or ends with an exception. -/
def Fills {α : Type} (w : CWallet) (r : EStateM.Result Thrown CWallet α) : Prop :=
  (endState r).Inv ∧ Frame w (endState r) ∧
    ∀ e w', r = .error e w' → e = .runtimeError "TopUpKeyPool() : writing generated key failed"

theorem topUpKey_ok {w w' : CWallet} (h : topUpKey w = .ok () w') : w.io 0 = true ∧
    w' = { w with
      nKeys := w.nKeys + 1
      io := fun n => w.io (n + 1)
      pool := w.pool.insert (nextIndex w.setKeyPool) (w.nKeys + 1)
      setKeyPool := insert (nextIndex w.setKeyPool) w.setKeyPool } := by
  cases hio : w.io 0 with
  | false =>
    simp [topUpKey, getWallet, generateNewKey, writePool, bind_run, throw_run, hio] at h
  | true =>
    simp [topUpKey, getWallet, generateNewKey, writePool, insertIndex, modifyWallet, bind_run,
      hio] at h
    exact ⟨rfl, h.symm⟩

theorem topUpKey_fills {w : CWallet} (h : w.Inv)
    (hfree : w.io 0 = true → w.Unreserved (nextIndex w.setKeyPool)) : Fills w (topUpKey w) := by
  cases hkey : topUpKey w with
  | ok u w' =>
    obtain ⟨hio, rfl⟩ := topUpKey_ok hkey
    exact ⟨(h.put_new (nextIndex_pos h.positive) (hfree hio)).of_more ⟨rfl, rfl, rfl, rfl⟩ rfl
      (fun _ _ => rfl) (Nat.le_refl _), ⟨rfl, rfl, rfl, rfl⟩, fun _ _ => nofun⟩
  | error e w' =>
    have hio : w.io 0 = false := by
      cases hio : w.io 0 with
      | false => rfl
      | true =>
        simp [topUpKey, getWallet, generateNewKey, writePool, insertIndex, modifyWallet, bind_run,
          hio] at hkey
    simp [topUpKey, getWallet, generateNewKey, writePool, bind_run, throw_run, hio] at hkey
    obtain ⟨rfl, rfl⟩ := hkey
    refine ⟨h.of_more ⟨rfl, rfl, rfl, rfl⟩ rfl (fun _ _ => rfl) (Nat.le_succ _),
      ⟨rfl, rfl, rfl, rfl⟩, fun e w' he => ?_⟩
    exact (EStateM.Result.error.inj he).1.symm

theorem nextIndex_notMem (s : Finset Int) : nextIndex s ∉ s :=
  fun hmem => absurd (lt_nextIndex hmem) (Int.lt_irrefl _)

theorem Fillable.next {w w' : CWallet} {nTargetSize : Nat} (h : Fillable w nTargetSize)
    (hlt : w.setKeyPool.card < nTargetSize + 1) (hkey : topUpKey w = .ok () w') :
    Fillable w' nTargetSize := by
  obtain ⟨hio, rfl⟩ := topUpKey_ok hkey
  intro k hk hwritten holder
  simp only [Finset.card_insert_of_notMem (nextIndex_notMem _)] at hk
  have hnext := h (k + 1) (by omega) (fun j hj => by
    cases j with
    | zero => exact hio
    | succ j => exact hwritten j (by omega)) holder
  simp only [nextIndex_insert]
  rwa [show nextIndex w.setKeyPool + 1 + k = nextIndex w.setKeyPool + (k + 1 : Nat) by push_cast; omega]

theorem topUpLoop_fills {nTargetSize : Nat} (fuel : Nat) {w : CWallet} (h : w.Inv)
    (hfree : Fillable w nTargetSize) : Fills w (topUpLoop nTargetSize fuel w) := by
  have hstay : Fills w (.ok () w) := ⟨h, Frame.refl w, fun _ _ => nofun⟩
  induction fuel generalizing w with
  | zero => exact hstay
  | succ fuel ih =>
    have hrun : topUpLoop nTargetSize (fuel + 1) w =
        if w.setKeyPool.card < nTargetSize + 1 then
          (topUpKey >>= fun _ => topUpLoop nTargetSize fuel) w
        else .ok () w := by
      simp only [topUpLoop, getWallet, bind_run]
      split <;> rfl
    rw [hrun]
    split
    · next hlt =>
      have hone := topUpKey_fills h fun hio => by
        simpa using hfree 0 (by omega) fun j hj => by
          obtain rfl := Nat.le_zero.mp hj
          exact hio
      rw [bind_run]
      cases hkey : topUpKey w with
      | error e w' =>
        rw [hkey] at hone
        exact hone
      | ok u w' =>
        rw [hkey] at hone
        obtain ⟨hinv, hframe, -⟩ := hone
        obtain ⟨hinv', hframe', herror⟩ :=
          ih hinv (hfree.next hlt hkey) ⟨hinv, Frame.refl w', fun _ _ => nofun⟩
        exact ⟨hinv', hframe.trans hframe', herror⟩
    · exact hstay

/-- The loop does not stop early. -/
theorem topUpLoop_card {nTargetSize fuel : Nat} {w w' : CWallet}
    (hfuel : nTargetSize + 1 ≤ w.setKeyPool.card + fuel)
    (h : topUpLoop nTargetSize fuel w = .ok () w') : nTargetSize + 1 ≤ w'.setKeyPool.card := by
  induction fuel generalizing w with
  | zero =>
    obtain ⟨-, rfl⟩ := pure_eq_ok.mp h
    exact hfuel
  | succ fuel ih =>
    obtain ⟨_, _, hget, h⟩ := bind_eq_ok.mp h
    obtain ⟨rfl, rfl⟩ := EStateM.Result.ok.inj hget
    split at h
    · obtain ⟨_, w₁, hone, h⟩ := bind_eq_ok.mp h
      obtain ⟨-, rfl⟩ := topUpKey_ok hone
      refine ih ?_ h
      simp only [Finset.card_insert_of_notMem (nextIndex_notMem _)]
      omega
    · next hle =>
      obtain ⟨-, rfl⟩ := pure_eq_ok.mp h
      omega

/-- The condition of `TopUpKeyPool`. -/
def TopUpOk (nKeypool nSize : Nat) (w : CWallet) : Prop :=
  w.fLocked = false → Fillable w (targetSize nKeypool nSize)

theorem topUpKeyPool_fills {nKeypool nSize : Nat} {w : CWallet} (h : w.Inv)
    (hok : TopUpOk nKeypool nSize w) : Fills w (topUpKeyPool nKeypool nSize w) ∧
      ∀ b w', topUpKeyPool nKeypool nSize w = .ok b w' → w.fLocked = false →
        w'.setKeyPool.Nonempty := by
  cases hlocked : w.fLocked with
  | true =>
    have hrun : topUpKeyPool nKeypool nSize w = .ok false w := by
      simp [topUpKeyPool, getWallet, bind_run, hlocked, pure_run]
    rw [hrun]
    exact ⟨⟨h, Frame.refl w, fun _ _ => nofun⟩, fun _ _ _ => nofun⟩
  | false =>
    have hrun : topUpKeyPool nKeypool nSize w =
        (topUpLoop (targetSize nKeypool nSize) (targetSize nKeypool nSize + 1) >>= fun _ =>
          pure true) w := by
      simp only [topUpKeyPool, getWallet, bind_run, hlocked, Bool.false_eq_true, if_false]
    have hloop := topUpLoop_fills (targetSize nKeypool nSize + 1) h (hok hlocked)
    rw [hrun, bind_run]
    cases hresult : topUpLoop (targetSize nKeypool nSize) (targetSize nKeypool nSize + 1) w with
    | error e w' =>
      rw [hresult] at hloop
      exact ⟨⟨hloop.1, hloop.2.1, fun e' w'' heq => hloop.2.2 e' w'' (by
        obtain ⟨rfl, rfl⟩ := EStateM.Result.error.inj heq
        rfl)⟩, fun _ _ => nofun⟩
    | ok u w' =>
      rw [hresult] at hloop
      refine ⟨⟨hloop.1, hloop.2.1, fun _ _ => nofun⟩, fun b w'' heq _ => ?_⟩
      obtain ⟨-, rfl⟩ := EStateM.Result.ok.inj heq
      have hcard := topUpLoop_card (by omega) hresult
      exact Finset.card_pos.mp (by omega)

/-! ## Moving keys -/

theorem pool_erased {pool : Map Int CPubKey} {i j : Int} (b : Bool) (hne : j ≠ i) :
    (if b then pool.erase i else pool)[j]? = pool[j]? := by
  cases b with
  | false => rfl
  | true => rw [if_pos rfl, Map.getElem?_erase, if_neg hne.symm]

namespace CWallet.Inv

variable {w : CWallet}

/-- Indices leave the set. -/
theorem forget (h : w.Inv) {s : Finset Int} (hs : s ⊆ w.setKeyPool) :
    Inv { w with setKeyPool := s } := by
  have hlive : ∀ i, Live { w with setKeyPool := s } i → w.Live i := by
    rintro i (hi | hi)
    · exact .inl (hs hi)
    · exact .inr hi
  exact ⟨fun i hi => h.recorded i (hlive i hi), fun i j hi hj => h.distinct i j (hlive i hi) (hlive j hj),
    fun i hi => h.positive i (hs hi), fun i hi => h.unreserved i (hs hi), h.exclusive, h.own,
    h.unused, h.kept, h.default⟩

/-- A key that no record has is kept. -/
theorem keep (h : w.Inv) {key : CPubKey} (hkey : key ≤ w.nKeys)
    (hnone : ∀ i, w.Live i → w.pool[i]? ≠ some key) :
    Inv { w with kept := insert key w.kept } := by
  refine ⟨fun i hi => ?_, h.distinct, h.positive, h.unreserved, h.exclusive, h.own, h.unused,
    fun k hk => ?_, h.default⟩
  · obtain ⟨k, hk, hhave, hkept, hdefault⟩ := h.recorded i hi
    refine ⟨k, hk, hhave, fun hmem => ?_, hdefault⟩
    rcases Finset.mem_insert.mp hmem with rfl | hmem
    · exact hnone i hi hk
    · exact hkept hmem
  · rcases Finset.mem_insert.mp hk with rfl | hk
    · exact hkey
    · exact h.kept k hk

theorem key_le (h : w.Inv) {i : Int} {key : CPubKey} (hi : w.Live i) (hkey : w.pool[i]? = some key) :
    key ≤ w.nKeys := by
  obtain ⟨key', hkey', hhave, -⟩ := h.recorded i hi
  obtain rfl := Option.some.inj (hkey.symm.trans hkey')
  simp only [haveKey, Bool.and_eq_true, decide_eq_true_eq] at hhave
  exact hhave.2

/-- A record that is not needed is erased. -/
theorem erased (h : w.Inv) {i : Int} (hi : ¬ w.Live i) : Inv { w with
    io := fun n => w.io (n + 1)
    pool := if w.io 0 then w.pool.erase i else w.pool } :=
  h.of_more ⟨rfl, rfl, rfl, rfl⟩ rfl
    (fun j hj => pool_erased _ fun heq : j = i => hi (heq ▸ hj)) (Nat.le_refl _)

/-- A holder gets an index of the set and its key. -/
theorem take (h : w.Inv) {i : Int} {key : CPubKey} (holder : Nat) (hi : i ∈ w.setKeyPool)
    (hkey : w.pool[i]? = some key) : Inv { w with
      setKeyPool := w.setKeyPool.erase i
      reserved := Function.update w.reserved holder ⟨i, key⟩ } := by
  have hpos := h.positive i hi
  have hother : ∀ {h' : Nat}, h' ≠ holder →
      Function.update w.reserved holder ⟨i, key⟩ h' = w.reserved h' := fun hne =>
    Function.update_of_ne hne _ _
  have hlive : ∀ j, Live { w with
      setKeyPool := w.setKeyPool.erase i
      reserved := Function.update w.reserved holder ⟨i, key⟩ } j → w.Live j := by
    rintro j (hj | ⟨h', hj, hne⟩)
    · exact .inl (Finset.mem_of_mem_erase hj)
    · by_cases heq : h' = holder
      · simp only [heq, Function.update_self] at hj
        exact .inl (hj ▸ hi)
      · simp only [hother heq] at hj
        exact .inr ⟨h', hj, hne⟩
  refine ⟨fun j hj => h.recorded j (hlive j hj),
    fun j k hj hk => h.distinct j k (hlive j hj) (hlive k hk),
    fun j hj => h.positive j (Finset.mem_of_mem_erase hj), fun j hj h' => ?_, fun h₁ h₂ hne heq => ?_,
    fun h' hne => ?_, fun h' hminus => ?_, h.kept, h.default⟩
  · obtain ⟨hne, hj⟩ := Finset.mem_erase.mp hj
    by_cases heq : h' = holder
    · simp only [heq, Function.update_self]
      exact hne.symm
    · simp only [hother heq]
      exact h.unreserved j hj h'
  · by_cases h₁eq : h₁ = holder <;> by_cases h₂eq : h₂ = holder
    · exact h₁eq.trans h₂eq.symm
    · simp only [h₁eq, Function.update_self, hother h₂eq] at heq
      exact absurd heq.symm (h.unreserved i hi h₂)
    · simp only [h₂eq, Function.update_self, hother h₁eq] at heq
      exact absurd heq (h.unreserved i hi h₁)
    · simp only [hother h₁eq, hother h₂eq] at hne heq
      exact h.exclusive h₁ h₂ hne heq
  · by_cases heq : h' = holder
    · simp only [heq, Function.update_self]
      exact ⟨hpos, hkey⟩
    · simp only [hother heq] at hne ⊢
      exact h.own h' hne
  · by_cases heq : h' = holder
    · simp only [heq, Function.update_self] at hminus
      omega
    · simp only [hother heq] at hminus ⊢
      exact h.unused h' hminus

/-- A holder lets go of what it has; where it had an index, that may go back into the set. -/
theorem letGo (h : w.Inv) (holder : Nat) {s : Finset Int}
    (hs : s = w.setKeyPool ∨
      (w.reserved holder).nIndex ≠ -1 ∧ s = insert (w.reserved holder).nIndex w.setKeyPool) :
    Inv { w with setKeyPool := s, reserved := Function.update w.reserved holder .free } := by
  have hother : ∀ {h' : Nat}, h' ≠ holder →
      Function.update w.reserved holder .free h' = w.reserved h' := fun hne =>
    Function.update_of_ne hne _ _
  have hset : ∀ j ∈ s, j ∈ w.setKeyPool ∨ (j ≠ -1 ∧ (w.reserved holder).nIndex = j) := by
    intro j hj
    rcases hs with rfl | ⟨hne, rfl⟩
    · exact .inl hj
    · rcases Finset.mem_insert.mp hj with rfl | hj
      · exact .inr ⟨hne, rfl⟩
      · exact .inl hj
  have hlive : ∀ j, Live { w with
      setKeyPool := s, reserved := Function.update w.reserved holder .free } j → w.Live j := by
    rintro j (hj | ⟨h', hj, hne⟩)
    · rcases hset j hj with hj | ⟨hne, hj⟩
      · exact .inl hj
      · exact .inr ⟨holder, hj, hne⟩
    · by_cases heq : h' = holder
      · simp only [heq, Function.update_self] at hj
        exact absurd hj.symm hne
      · simp only [hother heq] at hj
        exact .inr ⟨h', hj, hne⟩
  refine ⟨fun j hj => h.recorded j (hlive j hj),
    fun j k hj hk => h.distinct j k (hlive j hj) (hlive k hk), fun j hj => ?_, fun j hj h' => ?_,
    fun h₁ h₂ hne heq => ?_, fun h' hne => ?_, fun h' hminus => ?_, h.kept, h.default⟩
  · rcases hset j hj with hj | ⟨hne, rfl⟩
    · exact h.positive j hj
    · exact (h.own holder hne).1
  · by_cases heq : h' = holder
    · simp only [heq, Function.update_self]
      rcases hset j hj with hj | ⟨hne, -⟩
      · have := h.positive j hj
        show (-1 : Int) ≠ j
        omega
      · exact hne.symm
    · simp only [hother heq]
      rcases hset j hj with hj | ⟨hne, rfl⟩
      · exact h.unreserved j hj h'
      · exact fun heq' => heq (h.exclusive holder h' hne heq'.symm).symm
  · by_cases h₁eq : h₁ = holder
    · simp only [h₁eq, Function.update_self] at hne
      exact absurd rfl hne
    · simp only [hother h₁eq] at hne heq
      by_cases h₂eq : h₂ = holder
      · simp only [h₂eq, Function.update_self] at heq
        exact absurd heq hne
      · simp only [hother h₂eq] at heq
        exact h.exclusive h₁ h₂ hne heq
  · by_cases heq : h' = holder
    · simp only [heq, Function.update_self] at hne
      exact absurd rfl hne
    · simp only [hother heq] at hne ⊢
      exact h.own h' hne
  · by_cases heq : h' = holder
    · simp only [heq, Function.update_self]
      exact .inl rfl
    · simp only [hother heq] at hminus ⊢
      exact h.unused h' hminus

/-- A holder that has nothing reserved is given the default key. -/
theorem giveDefault (h : w.Inv) {holder : Nat} (hnone : (w.reserved holder).nIndex = -1) :
    Inv { w with reserved := Function.update w.reserved holder ⟨-1, w.vchDefaultKey⟩ } := by
  have hindex : ∀ h', (Function.update w.reserved holder ⟨-1, w.vchDefaultKey⟩ h').nIndex =
      (w.reserved h').nIndex := by
    intro h'
    by_cases heq : h' = holder
    · rw [heq, Function.update_self, hnone]
    · rw [Function.update_of_ne heq]
  have hlive : ∀ j, Live { w with
      reserved := Function.update w.reserved holder ⟨-1, w.vchDefaultKey⟩ } j ↔ w.Live j := by
    intro j
    simp only [Live, hindex]
  refine ⟨fun j hj => h.recorded j ((hlive j).mp hj),
    fun j k hj hk => h.distinct j k ((hlive j).mp hj) ((hlive k).mp hk), h.positive,
    fun j hj h' => ?_, fun h₁ h₂ hne heq => ?_, fun h' hne => ?_, fun h' hminus => ?_, h.kept,
    h.default⟩
  · simp only [hindex]
    exact h.unreserved j hj h'
  · simp only [hindex] at hne heq
    exact h.exclusive h₁ h₂ hne heq
  · simp only [hindex] at hne ⊢
    have heq : h' ≠ holder := fun heq => hne (heq ▸ hnone)
    simp only [Function.update_of_ne heq]
    exact h.own h' hne
  · by_cases heq : h' = holder
    · simp only [heq, Function.update_self, or_true]
    · simp only [Function.update_of_ne heq] at hminus ⊢
      exact h.unused h' hminus

end CWallet.Inv

/-! ## Handing keys out -/

/-- The outcomes of `ReserveKeyFromKeyPool`, for `holder` or for a variable of the caller. -/
inductive Reserved (w : CWallet) : Option Nat →
    EStateM.Result Thrown CWallet (Int × CPubKey) → Prop where
  /-- A record could not be written. -/
  | thrown {w' : CWallet} {holder : Option Nat} (hinv : w'.Inv) (hframe : Frame w w') :
      Reserved w holder (.error (.runtimeError "TopUpKeyPool() : writing generated key failed") w')
  /-- The wallet is locked and the pool is empty. -/
  | empty {w' : CWallet} {holder : Option Nat} (hinv : w'.Inv) (hframe : Frame w w')
      (hlocked : w.fLocked = true) (hset : w.setKeyPool = ∅) : Reserved w holder (.ok (-1, 0) w')
  | found {w' : CWallet} {i : Int} {key : CPubKey} (hinv : w'.Inv) (hframe : Frame w w')
      (hi : i ∈ w'.setKeyPool) (hkey : w'.pool[i]? = some key) (hkept : key ∉ w.kept)
      (holder : Option Nat) : Reserved w holder (.ok (i, key) { w' with
        setKeyPool := w'.setKeyPool.erase i
        reserved := match holder with
          | none => w'.reserved
          | some h => Function.update w'.reserved h { w'.reserved h with nIndex := i } })

theorem takeOldest_cases {w w₁ : CWallet} (holder : Option Nat) (hinv : w₁.Inv)
    (hframe : Frame w w₁) (hempty : w₁.setKeyPool = ∅ → w.fLocked = true ∧ w.setKeyPool = ∅) :
    Reserved w holder (takeOldest holder w₁) := by
  unfold takeOldest
  by_cases hne : w₁.setKeyPool.Nonempty
  · have hi := w₁.setKeyPool.min'_mem hne
    obtain ⟨key, hkey, hhave, hkept, -⟩ := hinv.recorded _ (.inl hi)
    rw [hframe.kept] at hkept
    have hfound := Reserved.found hinv hframe hi hkey hkept
    cases holder with
    | none =>
      simpa only [getWallet, setIndex, modifyWallet, bind_run, pure_run, dif_pos hne, hkey, hhave,
        if_true] using hfound none
    | some h' =>
      simpa only [getWallet, setIndex, modifyWallet, bind_run, pure_run, dif_pos hne, hkey, hhave,
        if_true] using hfound (some h')
  · obtain ⟨hlocked, hset⟩ := hempty (Finset.not_nonempty_iff_eq_empty.mp hne)
    simpa only [getWallet, bind_run, pure_run, dif_neg hne] using
      Reserved.empty hinv hframe hlocked hset

theorem reserveKey_cases {nKeypool : Nat} {w : CWallet} {holder : Option Nat} (h : w.Inv)
    (hok : TopUpOk nKeypool 0 w) (hfree : ∀ h', holder = some h' → (w.reserved h').nIndex = -1) :
    Reserved w holder (reserveKeyFromKeyPool nKeypool holder w) := by
  have hset : setIndex holder (-1) w = .ok () w := by
    cases holder with
    | none => rfl
    | some h' =>
      have hsame : ({ w.reserved h' with nIndex := -1 } : CReserveKey) = w.reserved h' := by
        rw [← hfree h' rfl]
      simp [setIndex, modifyWallet, hsame]
  unfold reserveKeyFromKeyPool
  rw [bind_run, hset]
  dsimp only
  rw [bind_run]
  dsimp only [getWallet]
  cases hlocked : w.fLocked with
  | true =>
    exact takeOldest_cases holder h (Frame.refl w) fun hempty => ⟨hlocked, hempty⟩
  | false =>
    obtain ⟨hfills, hnonempty⟩ := topUpKeyPool_fills h hok
    simp only [Bool.false_eq_true, if_false, bind_assoc, pure_bind]
    rw [bind_run]
    cases hresult : topUpKeyPool nKeypool 0 w with
    | error e w' =>
      rw [hresult] at hfills
      obtain ⟨hinv, hframe, herror⟩ := hfills
      rw [herror e w' rfl]
      exact .thrown hinv hframe
    | ok b w' =>
      rw [hresult] at hfills
      refine takeOldest_cases holder hfills.1 hfills.2.1 fun hempty => ?_
      have := hnonempty b w' hresult hlocked
      rw [hempty] at this
      exact absurd this Finset.not_nonempty_empty

/-- What every call keeps: the invariant holds afterwards, the only exceptions are records that
could not be written, and a key that is handed out has not been kept before. -/
structure Serves (w : CWallet) (r : EStateM.Result Thrown CWallet (Option CPubKey)) : Prop where
  inv : (endState r).Inv
  thrown : ∀ e w', r = .error e w' →
    e = .runtimeError "TopUpKeyPool() : writing generated key failed" ∨
      e = .runtimeError "AddReserveKey() : writing added key failed"
  fresh : ∀ key w', r = .ok (some key) w' → key ∉ w.kept

theorem Serves.ok_none {w w' : CWallet} (h : w'.Inv) : Serves w (.ok none w') :=
  ⟨h, fun _ _ => nofun, fun _ _ => nofun⟩

theorem Serves.ok_some {w w' : CWallet} {key : CPubKey} (h : w'.Inv) (hkey : key ∉ w.kept) :
    Serves w (.ok (some key) w') := by
  refine ⟨h, fun _ _ => nofun, fun key' w'' heq => ?_⟩
  obtain ⟨hsame, -⟩ := EStateM.Result.ok.inj heq
  rwa [← Option.some.inj hsame]

theorem Serves.thrown_topUp {w w' : CWallet} (h : w'.Inv) : Serves w
    (.error (.runtimeError "TopUpKeyPool() : writing generated key failed") w') :=
  ⟨h, fun _ _ heq => .inl (EStateM.Result.error.inj heq).1.symm, fun _ _ => nofun⟩

/-- The default key of the wallet has not been kept, where the pool could run empty. -/
def DefaultOk (w : CWallet) : Prop :=
  w.fLocked = true → w.setKeyPool = ∅ → w.vchDefaultKey ≠ 0 → w.vchDefaultKey ∉ w.kept

theorem getReservedKey_serves {nKeypool h : Nat} {w : CWallet} (hinv : w.Inv)
    (hok : (w.reserved h).nIndex = -1 → TopUpOk nKeypool 0 w ∧ DefaultOk w) :
    Serves w (getReservedKey nKeypool h w) := by
  unfold getReservedKey
  rw [bind_run]
  dsimp only [getWallet]
  by_cases hnone : (w.reserved h).nIndex = -1
  · obtain ⟨htopUp, hdefault⟩ := hok hnone
    rw [if_pos hnone, bind_run]
    have hcases := reserveKey_cases hinv htopUp fun h' (heq : some h = some h') =>
      Option.some.inj heq ▸ hnone
    generalize reserveKeyFromKeyPool nKeypool (some h) w = r at hcases ⊢
    cases hcases with
    | thrown hinv' => exact .thrown_topUp hinv'
    | @empty w' _ hinv' hframe hlocked hset =>
      have hnone' : (w'.reserved h).nIndex = -1 := by rw [hframe.reserved, hnone]
      by_cases hzero : w'.vchDefaultKey = 0
      · have hrun : Serves w (.ok none w') := .ok_none hinv'
        simpa [getWallet, bind_run, pure_run, hzero, -bind_pure_comp] using hrun
      · have hkept : w'.vchDefaultKey ∉ w.kept := by
          rw [hframe.vchDefaultKey] at hzero ⊢
          exact hdefault hlocked hset hzero
        have hrun := Serves.ok_some (hinv'.giveDefault hnone') hkept
        rw [← hnone'] at hrun
        simpa [getWallet, setPubKey, modifyWallet, bind_run, pure_run, hzero, -bind_pure_comp] using hrun
    | @found w' i key hinv' hframe hi hkey hkept =>
      have hne : i ≠ -1 := by
        have := hinv'.positive i hi
        omega
      have hrun := Serves.ok_some (hinv'.take h hi hkey) hkept
      simpa [getWallet, setPubKey, modifyWallet, bind_run, pure_run, hne, -bind_pure_comp] using hrun
  · rw [if_neg hnone]
    obtain ⟨key, hkey, -, hkept, -⟩ := hinv.recorded _ (.inr ⟨h, rfl, hnone⟩)
    rw [(hinv.own h hnone).2] at hkey
    exact .ok_some hinv (Option.some.inj hkey ▸ hkept)

theorem getKeyFromPool_serves {nKeypool : Nat} {fAllowReuse : Bool} {w : CWallet} (hinv : w.Inv)
    (htopUp : TopUpOk nKeypool 0 w) (hdefault : fAllowReuse = true → DefaultOk w) :
    Serves w (getKeyFromPool nKeypool fAllowReuse w) := by
  unfold getKeyFromPool
  rw [bind_run]
  have hcases := reserveKey_cases hinv htopUp fun h' (heq : none = some h') => absurd heq nofun
  generalize reserveKeyFromKeyPool nKeypool none w = r at hcases ⊢
  cases hcases with
  | thrown hinv' => exact .thrown_topUp hinv'
  | @empty w' _ hinv' hframe hlocked hset =>
    have hlocked' : w'.fLocked = true := hframe.fLocked.trans hlocked
    by_cases hreuse : fAllowReuse = true ∧ w'.vchDefaultKey ≠ 0
    · have hkept : w'.vchDefaultKey ∉ w.kept := by
        rw [hframe.vchDefaultKey] at hreuse ⊢
        exact hdefault hreuse.1 hlocked hset hreuse.2
      have hrun := Serves.ok_some (hinv'.keep hinv'.default fun i hi heq => by
        obtain ⟨key, hkey, -, -, hne⟩ := hinv'.recorded i hi
        exact hne (Option.some.inj (hkey.symm.trans heq))) hkept
      simpa [getWallet, noteKept, modifyWallet, bind_run, pure_run, hreuse, -bind_pure_comp] using hrun
    · have hrun : Serves w (.ok none w') := .ok_none hinv'
      simpa [getWallet, bind_run, pure_run, hreuse, hlocked', -bind_pure_comp] using hrun
  | @found w' i key hinv' hframe hi hkey hkept =>
    have hne : i ≠ -1 := by
      have := hinv'.positive i hi
      omega
    have hgone : ∀ {j}, Live { w' with setKeyPool := w'.setKeyPool.erase i } j →
        j ≠ i ∧ w'.Live j := by
      rintro j (hj | ⟨h', hj, hne'⟩)
      · exact ⟨(Finset.mem_erase.mp hj).1, .inl (Finset.mem_erase.mp hj).2⟩
      · exact ⟨fun heq => hinv'.unreserved i hi h' (hj.trans heq), .inr ⟨h', hj, hne'⟩⟩
    have hforget := hinv'.forget (Finset.erase_subset i w'.setKeyPool)
    have hkeep := (hforget.erased fun hi' => (hgone hi').1 rfl).keep
      (hinv'.key_le (.inl hi) hkey) fun j hj heq => by
        obtain ⟨hji, hj⟩ := hgone hj
        rw [pool_erased _ hji] at heq
        exact hji (hinv'.distinct j i hj (.inl hi) (heq.trans hkey.symm))
    have hrun := Serves.ok_some hkeep hkept
    simpa [getWallet, walletKeepKey, erasePool, noteKept, modifyWallet, bind_run, pure_run, hne,
      -bind_pure_comp] using hrun

/-! ## Keeping and returning keys -/

/-- A holder that lets go of its index without returning it leaves it unused. -/
theorem not_live_letGo {w : CWallet} {h : Nat} (hinv : w.Inv) :
    ¬ Live { w with reserved := Function.update w.reserved h .free } (w.reserved h).nIndex := by
  rintro (hi | ⟨h', hi, hne⟩)
  · exact hinv.unreserved _ hi h rfl
  · by_cases heq : h' = h
    · simp only [heq, Function.update_self] at hi
      exact hne hi.symm
    · simp only [Function.update_of_ne heq] at hi
      exact heq (hinv.exclusive h h' hne hi.symm).symm

theorem live_of_letGo {w : CWallet} {h : Nat} {j : Int}
    (hj : Live { w with reserved := Function.update w.reserved h .free } j) : w.Live j := by
  rcases hj with hj | ⟨h', hj, hne⟩
  · exact .inl hj
  · by_cases heq : h' = h
    · simp only [heq, Function.update_self] at hj
      exact absurd hj.symm hne
    · simp only [Function.update_of_ne heq] at hj
      exact .inr ⟨h', hj, hne⟩

/-- The key of a holder is in no record but its own. -/
theorem key_unique {w : CWallet} {h : Nat} (hinv : w.Inv) (hkey : (w.reserved h).vchPubKey ≠ 0) :
    (w.reserved h).vchPubKey ≤ w.nKeys ∧ ∀ j, w.Live j → j ≠ (w.reserved h).nIndex →
      w.pool[j]? ≠ some (w.reserved h).vchPubKey := by
  by_cases hnone : (w.reserved h).nIndex = -1
  · have hdefault := (hinv.unused h hnone).resolve_left hkey
    rw [hdefault]
    refine ⟨hinv.default, fun j hj _ heq => ?_⟩
    obtain ⟨key, hrecord, -, -, hne⟩ := hinv.recorded j hj
    exact hne (Option.some.inj (hrecord.symm.trans heq))
  · have hlive : w.Live (w.reserved h).nIndex := .inr ⟨h, rfl, hnone⟩
    have hown := (hinv.own h hnone).2
    exact ⟨hinv.key_le hlive hown, fun j hj hne heq =>
      hne (hinv.distinct j _ hj hlive (heq.trans hown.symm))⟩

/-- `KeepKey` ends well, and erases the record of the holder only. -/
theorem keepKey_ok {w : CWallet} (h : Nat) (hinv : w.Inv) : ∃ w', keepKey h w = .ok () w' ∧ w'.Inv ∧
    w'.setKeyPool = w.setKeyPool ∧ ∀ j, j ≠ (w.reserved h).nIndex → w'.pool[j]? = w.pool[j]? := by
  have hfree := hinv.letGo h (.inl rfl)
  by_cases hnone : (w.reserved h).nIndex = -1 <;> by_cases hkey : (w.reserved h).vchPubKey = 0
  · refine ⟨_, ?_, hfree, rfl, fun _ _ => rfl⟩
    simp [keepKey, getWallet, release, modifyWallet, bind_run, pure_run, hnone, hkey, -bind_pure_comp]
  · obtain ⟨hle, hunique⟩ := key_unique hinv hkey
    refine ⟨_, ?_, hfree.keep hle fun j hj => hunique j (live_of_letGo hj) fun heq =>
      not_live_letGo hinv (heq ▸ hj), rfl, fun _ _ => rfl⟩
    simp [keepKey, getWallet, noteKept, release, modifyWallet, bind_run, pure_run, hnone, hkey,
      -bind_pure_comp]
  · refine ⟨_, ?_, hfree.erased (not_live_letGo hinv), rfl, fun j hj => pool_erased _ hj⟩
    simp [keepKey, getWallet, walletKeepKey, erasePool, release, modifyWallet, bind_run, pure_run,
      hnone, hkey, -bind_pure_comp]
  · obtain ⟨hle, hunique⟩ := key_unique hinv hkey
    refine ⟨_, ?_, (hfree.erased (not_live_letGo hinv)).keep hle fun j hj heq => ?_, rfl,
      fun j hj => pool_erased _ hj⟩
    · simp [keepKey, getWallet, walletKeepKey, erasePool, noteKept, release, modifyWallet, bind_run,
        pure_run, hnone, hkey, -bind_pure_comp]
    · have hne : j ≠ (w.reserved h).nIndex := fun heq => not_live_letGo hinv (heq ▸ hj)
      rw [pool_erased _ hne] at heq
      exact hunique j (live_of_letGo hj) hne heq

/-- The set of indices after `ReturnKey` of a holder. -/
def returned (w : CWallet) (h : Nat) : Finset Int :=
  if (w.reserved h).nIndex = -1 then w.setKeyPool
  else insert (w.reserved h).nIndex w.setKeyPool

/-- `ReturnKey` ends well, and makes the index of the holder available, with its record. -/
theorem returnKey_ok {w : CWallet} (h : Nat) (hinv : w.Inv) : ∃ w', returnKey h w = .ok () w' ∧
    w'.Inv ∧ w'.setKeyPool = returned w h ∧ w'.pool = w.pool := by
  unfold returned
  by_cases hnone : (w.reserved h).nIndex = -1
  · refine ⟨_, ?_, hinv.letGo h (.inl rfl), (if_pos hnone).symm, rfl⟩
    simp [returnKey, getWallet, release, modifyWallet, bind_run, pure_run, hnone, -bind_pure_comp]
  · refine ⟨_, ?_, hinv.letGo h (.inr ⟨hnone, rfl⟩), (if_neg hnone).symm, rfl⟩
    simp [returnKey, getWallet, walletReturnKey, insertIndex, release, modifyWallet, bind_run,
      hnone, -bind_pure_comp]

/-! ## A new pool -/

theorem forM_cons_run {α : Type} (f : α → WalletM Unit) (a : α) (l : List α) (w : CWallet) :
    (a :: l).forM f w = (f a >>= fun _ => l.forM f) w := rfl

/-- Erasing records one after the other. -/
theorem erasePools_ok (l : List Int) (w : CWallet) : ∃ pool : Map Int CPubKey,
    (l.forM fun nIndex => do let _ ← erasePool nIndex) w =
      .ok () { w with io := fun n => w.io (n + l.length), pool := pool } ∧
    ∀ j ∉ l, pool[j]? = w.pool[j]? := by
  induction l generalizing w with
  | nil => exact ⟨w.pool, rfl, fun _ _ => rfl⟩
  | cons i l ih =>
    obtain ⟨pool, hrun, hpool⟩ := ih { w with
      io := fun n => w.io (n + 1)
      pool := if w.io 0 then w.pool.erase i else w.pool }
    refine ⟨pool, ?_, fun j hj => ?_⟩
    · have hrest : (fun n => w.io (n + l.length + 1)) = fun n => w.io (n + (i :: l).length) := rfl
      simp only [hrest] at hrun
      rw [forM_cons_run, bind_run]
      exact hrun
    · rw [hpool j (fun hmem => hj (List.mem_cons_of_mem i hmem))]
      exact pool_erased _ fun heq => hj (heq ▸ List.mem_cons_self)

/-- The condition of `NewKeyPool`: no index it writes is reserved, and all the writes work. -/
def NewPoolOk (nKeys : Nat) (w : CWallet) : Prop :=
  w.fLocked = false → ∀ i < nKeys, w.Unreserved (i + 1) ∧ w.io (w.setKeyPool.card + i) = true

theorem newPoolKeys_ok {w : CWallet} (start n : Nat) (h : w.Inv)
    (hfree : ∀ i < n, w.Unreserved ((start + i : Nat) + 1) ∧ w.io i = true) : ∃ w',
    ((List.range' start n).forM fun (i : Nat) => newPoolKey (i + 1)) w = .ok () w' ∧ w'.Inv := by
  induction n generalizing start w with
  | zero => exact ⟨w, rfl, h⟩
  | succ n ih =>
    obtain ⟨hzero, hio⟩ := hfree 0 (Nat.succ_pos n)
    have hput := h.put_new (i := (start : Int) + 1) (by omega) (by simpa using hzero)
    have hone : Inv { w with
        nKeys := w.nKeys + 1
        io := fun n => w.io (n + 1)
        pool := w.pool.insert ((start : Int) + 1) (w.nKeys + 1)
        setKeyPool := insert ((start : Int) + 1) w.setKeyPool } :=
      hput.of_more ⟨rfl, rfl, rfl, rfl⟩ rfl (fun _ _ => rfl) (Nat.le_refl _)
    obtain ⟨w', hrun, hinv⟩ := ih (start + 1) hone fun i hi => by
      obtain ⟨hnext, hio'⟩ := hfree (i + 1) (Nat.succ_lt_succ hi)
      exact ⟨by rwa [show start + (i + 1) = start + 1 + i by omega] at hnext, hio'⟩
    refine ⟨w', ?_, hinv⟩
    rw [List.range'_succ, forM_cons_run, bind_run]
    have hkey : newPoolKey ((start : Int) + 1) w = .ok () { w with
        nKeys := w.nKeys + 1
        io := fun n => w.io (n + 1)
        pool := w.pool.insert ((start : Int) + 1) (w.nKeys + 1)
        setKeyPool := insert ((start : Int) + 1) w.setKeyPool } := by
      simp [newPoolKey, generateNewKey, writePool, insertIndex, modifyWallet, bind_run, hio]
    rw [hkey]
    exact hrun

theorem newKeyPool_ok {nKeys : Nat} {w : CWallet} (h : w.Inv) (hok : NewPoolOk nKeys w) :
    ∃ b w', newKeyPool nKeys w = .ok b w' ∧ w'.Inv := by
  obtain ⟨pool, herase, hpool⟩ := erasePools_ok (w.setKeyPool.sort (· ≤ ·)) w
  rw [Finset.length_sort] at herase
  have hcleared : Inv { w with
      io := fun n => w.io (n + w.setKeyPool.card), pool := pool, setKeyPool := ∅ } := by
    refine (h.forget (Finset.empty_subset _)).of_more ⟨rfl, rfl, rfl, rfl⟩ rfl (fun j hj => ?_)
      (Nat.le_refl _)
    refine hpool j fun hmem => ?_
    rw [Finset.mem_sort] at hmem
    rcases hj with hj | ⟨h', hj, -⟩
    · exact absurd hj (Finset.notMem_empty j)
    · exact h.unreserved j hmem h' hj
  have hrun : newKeyPool nKeys w = (if w.fLocked then pure false else do
      (List.range nKeys).forM fun (i : Nat) => newPoolKey (i + 1)
      pure true : WalletM Bool) { w with
        io := fun n => w.io (n + w.setKeyPool.card), pool := pool, setKeyPool := ∅ } := by
    unfold newKeyPool
    rw [bind_run]
    dsimp only [getWallet]
    rw [bind_run, herase]
    rfl
  rw [hrun]
  cases hlocked : w.fLocked with
  | true => exact ⟨false, _, rfl, hlocked ▸ hcleared⟩
  | false =>
    obtain ⟨w', hkeys, hinv⟩ := newPoolKeys_ok 0 nKeys hcleared fun i hi => by
      obtain ⟨hfree, hio⟩ := hok hlocked i hi
      refine ⟨by rwa [Nat.zero_add], ?_⟩
      rw [Nat.add_comm] at hio
      exact hio
    rw [← List.range_eq_range', hlocked] at hkeys
    simp only [Bool.false_eq_true, if_false]
    rw [bind_run, hkeys]
    exact ⟨true, w', rfl, hinv⟩

/-! ## Added keys -/

/-- The condition of `AddReserveKey`: the set is not empty, and where the record is written, its
index is not reserved, and its key is owned, and neither in another record nor handed out. -/
def AddOk (key : CPubKey) (w : CWallet) : Prop :=
  w.setKeyPool.Nonempty ∧ (w.io 0 = true → w.Unreserved (nextIndex w.setKeyPool) ∧
    w.haveKey key = true ∧ key ∉ w.kept ∧ key ≠ w.vchDefaultKey ∧
    ∀ j, w.Live j → w.pool[j]? ≠ some key)

theorem addReserveKey_serves {key : CPubKey} {w : CWallet} (hinv : w.Inv) (hok : AddOk key w) :
    Serves w ((do let _ ← addReserveKey key; pure none : WalletM (Option CPubKey)) w) := by
  obtain ⟨hne, hok⟩ := hok
  cases hio : w.io 0 with
  | true =>
    obtain ⟨hfree, hhave, hkept, hdefault, hnew⟩ := hok hio
    have hput : Inv { w with
        io := fun n => w.io (n + 1)
        pool := w.pool.insert (nextIndex w.setKeyPool) key
        setKeyPool := insert (nextIndex w.setKeyPool) w.setKeyPool } :=
      (hinv.put (nextIndex_pos hinv.positive) hfree hhave hkept hdefault hnew).of_more
        ⟨rfl, rfl, rfl, rfl⟩ rfl (fun _ _ => rfl) (Nat.le_refl _)
    have hrun : Serves w (.ok none _) := .ok_none hput
    simpa [addReserveKey, getWallet, writePool, insertIndex, modifyWallet, bind_run, pure_run, hne,
      hio, -bind_pure_comp] using hrun
  | false =>
    have hsame : Inv { w with io := fun n => w.io (n + 1) } :=
      hinv.of_more ⟨rfl, rfl, rfl, rfl⟩ rfl (fun _ _ => rfl) (Nat.le_refl _)
    have hrun : Serves w (.error (.runtimeError "AddReserveKey() : writing added key failed")
        { w with io := fun n => w.io (n + 1) }) :=
      ⟨hsame, fun _ _ heq => .inr (EStateM.Result.error.inj heq).1.symm, fun _ _ => nofun⟩
    simpa [addReserveKey, getWallet, writePool, bind_run, throw_run, hne, hio,
      -bind_pure_comp] using hrun

/-! ## Runs -/

/-- What a call must not do for the pool to stay safe: write a record under an index that is
reserved, put an index without a record into the set, look for the last index of the empty set,
or hand out the default key after it has been kept. -/
def Meets (nKeypool : Nat) (w : CWallet) : Call → Prop
  | .getReservedKey h => (w.reserved h).nIndex = -1 → TopUpOk nKeypool 0 w ∧ DefaultOk w
  | .getKeyFromPool fAllowReuse => TopUpOk nKeypool 0 w ∧ (fAllowReuse = true → DefaultOk w)
  | .topUpKeyPool nSize => TopUpOk nKeypool nSize w
  | .newKeyPool => NewPoolOk nKeypool w
  | .addReserveKey keypool => AddOk keypool w
  | _ => True

theorem exec_serves {nKeypool : Nat} {w : CWallet} {c : Call} (hinv : w.Inv)
    (hok : Meets nKeypool w c) : Serves w (c.exec nKeypool w) := by
  cases c with
  | getReservedKey h => exact getReservedKey_serves hinv hok
  | getKeyFromPool fAllowReuse => exact getKeyFromPool_serves hinv hok.1 hok.2
  | addReserveKey keypool => exact addReserveKey_serves hinv hok
  | keepKey h =>
    obtain ⟨w', hrun, hinv', -⟩ := keepKey_ok h hinv
    simp only [Call.exec, bind_run, hrun]
    exact .ok_none hinv'
  | returnKey h =>
    obtain ⟨w', hrun, hinv', -⟩ := returnKey_ok h hinv
    simp only [Call.exec, bind_run, hrun]
    exact .ok_none hinv'
  | topUpKeyPool nSize =>
    have hfills := (topUpKeyPool_fills hinv hok).1
    simp only [Call.exec, bind_run]
    cases hrun : topUpKeyPool nKeypool nSize w with
    | ok b w' => exact .ok_none (hrun ▸ hfills.1 : (endState (EStateM.Result.ok b w')).Inv)
    | error e w' =>
      rw [hrun] at hfills
      rw [hfills.2.2 e w' rfl]
      exact .thrown_topUp hfills.1
  | newKeyPool =>
    obtain ⟨b, w', hrun, hinv'⟩ := newKeyPool_ok hinv hok
    simp only [Call.exec, bind_run, hrun]
    exact .ok_none hinv'
  | lock =>
    exact .ok_none ⟨hinv.recorded, hinv.distinct, hinv.positive, hinv.unreserved, hinv.exclusive,
      hinv.own, hinv.unused, hinv.kept, hinv.default⟩
  | unlock =>
    exact .ok_none ⟨hinv.recorded, hinv.distinct, hinv.positive, hinv.unreserved, hinv.exclusive,
      hinv.own, hinv.unused, hinv.kept, hinv.default⟩

theorem inv_withIo {w : CWallet} (io : Nat → Bool) (hinv : w.Inv) : Inv { w with io := io } :=
  hinv.of_more ⟨rfl, rfl, rfl, rfl⟩ rfl (fun _ _ => rfl) (Nat.le_refl _)

theorem Runs.inv {nKeypool : Nat} {w : CWallet} (h : Runs nKeypool (Meets nKeypool) w) : w.Inv := by
  induction h with
  | start h => exact .of_starts h
  | call _ hok ih => exact (exec_serves (inv_withIo _ ih) hok).inv

/-- What the callers of the pool rely on, one call at a time. -/
structure Answers (w : CWallet) (c : Call) (r : EStateM.Result Thrown CWallet (Option CPubKey)) :
    Prop where
  /-- A call only fails when a record cannot be written. -/
  thrown : ∀ e w', r = .error e w' →
    e = .runtimeError "TopUpKeyPool() : writing generated key failed" ∨
      e = .runtimeError "AddReserveKey() : writing added key failed"
  /-- A key that has been kept is not handed out again. -/
  fresh : ∀ key w', r = .ok (some key) w' → key ∉ w.kept
  keeps : ∀ h, c = .keepKey h → ∃ w', r = .ok none w' ∧ w'.setKeyPool = w.setKeyPool ∧
    ∀ j, j ≠ (w.reserved h).nIndex → w'.pool[j]? = w.pool[j]?
  returns : ∀ h, c = .returnKey h → ∃ w', r = .ok none w' ∧ w'.setKeyPool = returned w h ∧
    w'.pool = w.pool

theorem exec_answers {nKeypool : Nat} {w : CWallet} {c : Call} (hinv : w.Inv)
    (hok : Meets nKeypool w c) : Answers w c (c.exec nKeypool w) := by
  have hserves := exec_serves hinv hok
  refine ⟨hserves.thrown, hserves.fresh, fun h hc => ?_, fun h hc => ?_⟩
  · obtain ⟨w', hrun, -, hset, hpool⟩ := keepKey_ok h hinv
    subst hc
    simp only [Call.exec, bind_run, hrun]
    exact ⟨w', rfl, hset, hpool⟩
  · obtain ⟨w', hrun, -, hset, hpool⟩ := returnKey_ok h hinv
    subst hc
    simp only [Call.exec, bind_run, hrun]
    exact ⟨w', rfl, hset, hpool⟩

/-- A new wallet, with a disk that always works. -/
def newWallet : CWallet where
  fLocked := false
  nKeys := 0
  vchDefaultKey := 0
  setKeyPool := ∅
  pool := ∅
  reserved _ := .free
  io _ := true
  kept := ∅

theorem newWallet_starts : Starts newWallet where
  reserved _ := rfl
  recorded i hi := absurd hi (Finset.notMem_empty i)
  distinct i hi := absurd hi (Finset.notMem_empty i)
  kept key hkey := absurd hkey (Finset.notMem_empty key)
  default := Nat.le_refl 0

theorem newWallet_meets (nKeypool : Nat) : Meets nKeypool newWallet (.getReservedKey 0) := by
  refine fun _ => ⟨fun _ k _ _ holder heq => ?_, nofun⟩
  have hnext : nextIndex newWallet.setKeyPool = 1 := dif_neg Finset.not_nonempty_empty
  have hfree : (newWallet.reserved holder).nIndex = -1 := rfl
  omega

theorem Runs.served {nKeypool : Nat} {ok : CWallet → Call → Prop} {w : CWallet}
    (h : Runs nKeypool ok w) (c : Call) (hok : ok w c) :
    Runs nKeypool ok (endState (c.exec nKeypool w)) :=
  Runs.call h hok

end KeyPool

end NoLimitCoin
