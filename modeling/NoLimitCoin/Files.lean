import NoLimitCoin.Connected

/-!
# What the block files hold

Blocks are only ever appended, so what has been stored at a position stays there, and a
transaction can be read at the position that `ConnectBlock` computes for it.

Results:

1. `put_holds` and `put_keeps`: the block just written is there, and all others still are.
2. `writeToDisk_ok`: what `WriteToDisk` does to the files.
-/

namespace NoLimitCoin

open Prog NodeM

theorem CTransaction.getSerializeSize_pos (tx : CTransaction) : 0 < tx.getSerializeSize := by
  have hlock : (leBytes 4 tx.nLockTime).length = 4 := length_leBytes 4 tx.nLockTime
  simp only [getSerializeSize, serialize, List.length_append, hlock]
  exact Nat.lt_add_left _ (by decide)

namespace CBlock

theorem length_flatMap_serialize (txs : List CTransaction) :
    (txs.flatMap CTransaction.serialize).length = (txs.map CTransaction.getSerializeSize).sum := by
  rw [List.length_flatMap]
  rfl

/-- The transactions of a list lie one after the other. -/
theorem txPositions_bounds {nTxPos : Nat} {txs : List CTransaction} {e : Nat × CTransaction}
    (h : e ∈ (txPositions nTxPos txs).zip txs) : nTxPos ≤ e.1 ∧
      e.1 + e.2.getSerializeSize ≤ nTxPos + (txs.map CTransaction.getSerializeSize).sum := by
  induction txs generalizing nTxPos with
  | nil => exact absurd h nofun
  | cons tx txs ih =>
    rw [txPositions, List.zip_cons_cons] at h
    rw [List.map_cons, List.sum_cons]
    rcases List.mem_cons.mp h with rfl | h
    · exact ⟨Nat.le_refl _, by dsimp only; omega⟩
    · obtain ⟨hlow, hhigh⟩ := ih h
      omega

theorem txPositions_distinct (nTxPos : Nat) (txs : List CTransaction) :
    ((txPositions nTxPos txs).zip txs).Pairwise fun a b => a.1 ≠ b.1 := by
  induction txs generalizing nTxPos with
  | nil => exact .nil
  | cons tx txs ih =>
    rw [txPositions, List.zip_cons_cons]
    refine List.pairwise_cons.mpr ⟨fun e he => ?_, ih _⟩
    have hlow := (txPositions_bounds he).1
    have hsize := tx.getSerializeSize_pos
    dsimp only
    omega

/-- The block fits into the bytes its file grows by. -/
theorem firstTxPos_add_le (block : CBlock) (nBlockPos : Nat) :
    block.firstTxPos nBlockPos + (block.vtx.map CTransaction.getSerializeSize).sum ≤
      nBlockPos + block.getSerializeSize := by
  have hsize : block.getSerializeSize = 80 + (getSizeOfCompactSize block.vtx.length +
      (block.vtx.map CTransaction.getSerializeSize).sum) +
      (serializeBytes block.vchBlockSig).length := by
    rw [getSerializeSize, serialize, List.length_append, List.length_append,
      length_serializeHeader, serializeVector, List.length_append, length_flatMap_serialize]
    rfl
  rw [firstTxPos, headerSize, hsize]
  omega

end CBlock

namespace BlockFiles

/-- Nothing is beyond the end of its file. -/
structure Bounded (files : BlockFiles) : Prop where
  blocks : ∀ (p : FilePos) (block : CBlock), files.blockAt[p]? = some block → p.nPos < files.sizeOf p.nFile
  txs : ∀ (p : FilePos) (tx : CTransaction), files.txAt[p]? = some tx → p.nPos < files.sizeOf p.nFile

/-- The block can be read at its position, and each of its transactions at its own. -/
structure Holds (files : BlockFiles) (nFile nBlockPos : Nat) (block : CBlock) : Prop where
  valid : validFile nFile = true
  stored : files.blockAt[(⟨nFile, nBlockPos⟩ : FilePos)]? = some block
  txs : ∀ e ∈ (CBlock.txPositions (block.firstTxPos nBlockPos) block.vtx).zip block.vtx,
    files.txAt[(⟨nFile, e.1⟩ : FilePos)]? = some e.2

theorem appendBlockFile_valid {files : BlockFiles} {nFile : Nat}
    (h : files.appendBlockFile = some nFile) : validFile nFile = true := by
  unfold appendBlockFile at h
  generalize files.fileSize.size + 1 = fuel at h
  generalize files.nCurrentBlockFile = n at h
  induction fuel generalizing n with
  | zero => exact absurd h nofun
  | succ fuel ih =>
    unfold appendLoop at h
    split at h
    · exact absurd h nofun
    · next hvalid =>
      split at h
      · rw [← Option.some.inj h]
        simpa using hvalid
      · exact ih _ h

theorem getElem?_putTxs_of_ne {nFile : Nat} {m : Map FilePos CTransaction}
    {entries : List (Nat × CTransaction)} {p : FilePos}
    (h : ∀ e ∈ entries, (⟨nFile, e.1⟩ : FilePos) ≠ p) : (putTxs nFile m entries)[p]? = m[p]? := by
  induction entries generalizing m with
  | nil => rfl
  | cons e entries ih =>
    obtain ⟨he, hrest⟩ := List.forall_mem_cons.mp h
    rw [putTxs, ih hrest, Map.getElem?_insert_of_ne _ _ he]

theorem getElem?_putTxs {nFile : Nat} {m : Map FilePos CTransaction}
    {entries : List (Nat × CTransaction)} (hdistinct : entries.Pairwise fun a b => a.1 ≠ b.1)
    {e : Nat × CTransaction} (h : e ∈ entries) :
    (putTxs nFile m entries)[(⟨nFile, e.1⟩ : FilePos)]? = some e.2 := by
  induction entries generalizing m with
  | nil => exact absurd h nofun
  | cons e' entries ih =>
    obtain ⟨hfirst, hrest⟩ := List.pairwise_cons.mp hdistinct
    rw [putTxs]
    rcases List.mem_cons.mp h with rfl | h
    · rw [getElem?_putTxs_of_ne, Map.getElem?_insert, if_pos rfl]
      intro e' he' heq
      exact hfirst e' he' (FilePos.mk.inj heq).2.symm
    · exact ih hrest h

theorem sizeOf_put (files : BlockFiles) (nFile nBlockPos n : Nat) (block : CBlock) :
    (files.put nFile nBlockPos block).sizeOf n =
      if nFile = n then nBlockPos + block.getSerializeSize else files.sizeOf n := by
  rw [sizeOf, put, Map.getElem?_insert]
  split <;> rfl

section append

variable {files : BlockFiles} {nFile nBlockPos : Nat} {block : CBlock}

/-- The place of a block that is appended is past everything in its file. -/
theorem blockAt_put (hbounded : files.Bounded) (hpos : files.sizeOf nFile ≤ nBlockPos)
    {p : FilePos} {block' : CBlock} (h : files.blockAt[p]? = some block') :
    (files.put nFile nBlockPos block).blockAt[p]? = some block' := by
  have hlt := hbounded.blocks p block' h
  rw [put, Map.getElem?_insert_of_ne _ _, h]
  rintro rfl
  dsimp only at hlt
  omega

theorem txAt_put (hbounded : files.Bounded) (hpos : files.sizeOf nFile ≤ nBlockPos)
    {p : FilePos} {tx : CTransaction} (h : files.txAt[p]? = some tx) :
    (files.put nFile nBlockPos block).txAt[p]? = some tx := by
  have hlt := hbounded.txs p tx h
  rw [put, getElem?_putTxs_of_ne, h]
  rintro e he rfl
  have hlow := (CBlock.txPositions_bounds he).1
  rw [CBlock.firstTxPos] at hlow
  dsimp only at hlt
  omega

theorem put_keeps (hbounded : files.Bounded) (hpos : files.sizeOf nFile ≤ nBlockPos)
    {n m : Nat} {block' : CBlock} (h : files.Holds n m block') :
    (files.put nFile nBlockPos block).Holds n m block' :=
  ⟨h.valid, blockAt_put hbounded hpos h.stored,
    fun e he => txAt_put hbounded hpos (h.txs e he)⟩

theorem put_holds (hvalid : validFile nFile = true) :
    (files.put nFile nBlockPos block).Holds nFile nBlockPos block := by
  refine ⟨hvalid, ?_, fun e he => ?_⟩
  · rw [put, Map.getElem?_insert, if_pos rfl]
  · exact getElem?_putTxs (CBlock.txPositions_distinct _ _) he

theorem empty_bounded : Bounded .empty :=
  ⟨fun _ _ h => absurd (Std.ExtTreeMap.getElem?_empty.symm.trans h) (by simp),
    fun _ _ h => absurd (Std.ExtTreeMap.getElem?_empty.symm.trans h) (by simp)⟩

theorem put_bounded (hbounded : files.Bounded) (hpos : files.sizeOf nFile ≤ nBlockPos) :
    (files.put nFile nBlockPos block).Bounded := by
  have hgrow : ∀ n, files.sizeOf n ≤ (files.put nFile nBlockPos block).sizeOf n := by
    intro n
    rw [sizeOf_put]
    split
    · next heq => rw [← heq]; omega
    · exact Nat.le_refl _
  have hblock : 80 ≤ block.getSerializeSize := by
    rw [CBlock.getSerializeSize, CBlock.serialize, List.length_append, List.length_append,
      CBlock.length_serializeHeader]
    omega
  refine ⟨fun p block' h => ?_, fun p tx h => ?_⟩
  · rw [put, Map.getElem?_insert] at h
    split at h
    · next heq =>
      rw [← heq, sizeOf_put, if_pos rfl]
      dsimp only
      omega
    · exact Nat.lt_of_lt_of_le (hbounded.blocks p block' h) (hgrow _)
  · by_cases hnew : ∃ e ∈ (CBlock.txPositions (block.firstTxPos nBlockPos) block.vtx).zip block.vtx,
        (⟨nFile, e.1⟩ : FilePos) = p
    · obtain ⟨e, he, rfl⟩ := hnew
      have hhigh := (CBlock.txPositions_bounds he).2
      have hsize := e.2.getSerializeSize_pos
      have hfit := block.firstTxPos_add_le nBlockPos
      rw [sizeOf_put, if_pos rfl]
      dsimp only
      omega
    · rw [put, getElem?_putTxs_of_ne fun e he heq => hnew ⟨e, he, heq⟩] at h
      exact Nat.lt_of_lt_of_le (hbounded.txs p tx h) (hgrow _)

end append

end BlockFiles

/-- `WriteToDisk` appends the block to one of the files. -/
theorem writeToDisk_ok {block : CBlock} {w w' : World} {pos : Nat × Nat}
    (h : writeToDisk block w = .ok pos w') : BlockFiles.validFile pos.1 = true ∧
      pos.2 = w.node.files.sizeOf pos.1 + 8 ∧ w'.log = w.log ∧
      w'.node = { w.node with files := w.node.files.put pos.1 pos.2 block } := by
  obtain ⟨ok, w₁, hok, h⟩ := bind_eq_ok.mp h
  have hsame := Reads.diskOk.ok hok
  obtain ⟨node, w₂, hnode, h⟩ := bind_eq_ok.mp h
  obtain ⟨rfl, rfl⟩ := EStateM.Result.ok.inj hnode
  rw [← hsame.node, ← hsame.log]
  cases hfile : w₁.node.files.appendBlockFile with
  | none =>
    rw [hfile] at h
    exact absurd h nofun
  | some nFile =>
    rw [hfile] at h
    obtain ⟨_, w₃, hrequire, h⟩ := bind_eq_ok.mp h
    have hsame₃ := (Reads.require _ _).ok hrequire
    obtain ⟨_, w₄, hmodify, h⟩ := bind_eq_ok.mp h
    obtain ⟨-, rfl⟩ := EStateM.Result.ok.inj hmodify
    obtain ⟨rfl, rfl⟩ := pure_eq_ok.mp h
    refine ⟨BlockFiles.appendBlockFile_valid hfile, rfl, hsame₃.log, ?_⟩
    rw [hsame₃.node]

end NoLimitCoin
