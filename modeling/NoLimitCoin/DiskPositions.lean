import NoLimitCoin.Encoding
import NoLimitCoin.Files
import NoLimitCoin.Mint
import NoLimitCoin.NetworkRuns

/-!
# Where transactions lie on disk

`WriteToDisk` appends a block to a file, behind the start marker and its size.  `ConnectBlock`
computes from the size of an empty block where the first transaction starts, and from the sizes of
the transactions where the next ones do; `ReadFromDisk` of a transaction reads from there on.

Results:
1. `serialize_split`: what the file holds from the position of a transaction on.
2. `txPosition_reads`: every transaction of a connected block is read back from the position that
   the index has recorded for it, after any number of blocks that are written later.
-/

namespace SpendIndex

variable {H P : Type} [DecidableEq H] {null : P}

/-- The positions of items with different hashes are those that the index holds in the end. -/
theorem pos_connectAll {ix : SpendIndex H P} {items : List (SpendItem H P)}
    (hnodup : (items.map SpendItem.hash).Nodup) {item : SpendItem H P} (h : item ∈ items) :
    (connectAll null ix items item.hash).map SpendEntry.pos = some item.pos := by
  have hother : ∀ (items : List (SpendItem H P)) (ix : SpendIndex H P) (k : H),
      k ∉ items.map SpendItem.hash →
      (connectAll null ix items k).map SpendEntry.pos = (ix k).map SpendEntry.pos := by
    intro items
    induction items with
    | nil => exact fun _ _ _ => rfl
    | cons other items ih =>
      intro ix k hk
      obtain ⟨hne, hk⟩ := not_or.mp fun h => hk (List.mem_cons.mpr h)
      refine (ih (connect null ix other) k hk).trans ?_
      rw [connect, Function.update_of_ne hne, pos_markAll]
  induction items generalizing ix with
  | nil => exact absurd h List.not_mem_nil
  | cons first items ih =>
    obtain ⟨hfirst, hnodup⟩ := List.nodup_cons.mp hnodup
    rcases List.mem_cons.mp h with rfl | h
    · refine (hother items (connect null ix item) item.hash hfirst).trans ?_
      rw [connect, Function.update_self]
      rfl
    · exact ih hnodup h

end SpendIndex

namespace NoLimitCoin

open Prog NodeM
open Network (maxSize)

/-! ## Block files -/

/-- The block files, by number. -/
abbrev DiskFiles := Map Nat (List UInt8)

namespace DiskFiles

/-- `OpenBlockFile(nFile, nBlockPos, "rb")`. -/
def openBlockFile (files : DiskFiles) (nFile nBlockPos : Nat) : Option CAutoFile :=
  if nFile < 1 ∨ nFile = uint32Max then none
  else files[nFile]?.map fun bytes => ⟨some (bytes.drop nBlockPos)⟩

/-- The bytes of a file; opening a file to append to it creates it. -/
def bytesOf (files : DiskFiles) (nFile : Nat) : List UInt8 := files[nFile]?.getD []

/-- The loop of `AppendBlockFile`, which goes on to the next file while one is too long. -/
def appendBlockFile (files : DiskFiles) : (fuel nCurrentBlockFile : Nat) → Option Nat
  | 0, _ => none
  | fuel + 1, nCurrentBlockFile =>
    if nCurrentBlockFile < 1 ∨ nCurrentBlockFile = uint32Max then none
    else if (files.bytesOf nCurrentBlockFile).length < 0x7F000000 - maxSize then
      some nCurrentBlockFile
    else files.appendBlockFile fuel (nCurrentBlockFile + 1)

/-- `WriteToDisk`, if nothing fails: the files, `nFileRet` and `nBlockPosRet`. -/
def writeToDisk (env : Env) (sizes : Sizes) (files : DiskFiles) (fuel nCurrentBlockFile : Nat)
    (block : CBlock) : Option (DiskFiles × Nat × Nat) := do
  let nFile ← files.appendBlockFile fuel nCurrentBlockFile
  let nSize := (CBlock.serializer sizes serDisk).getSerializeSize block
  let before := files.bytesOf nFile ++ (Network.pchMessageStart env ++ leBytes 4 nSize)
  pure (files.insert nFile (before ++ (CBlock.serializer sizes serDisk).serialize block), nFile,
    before.length)

/-- `CTransaction::ReadFromDisk(pos)`. -/
def readTx (sizes : Sizes) (files : DiskFiles) (pos : CDiskTxPos) : Option CTransaction := do
  let filein ← files.openBlockFile pos.nFile 0
  -- `fseek`
  let filein : CAutoFile := ⟨filein.file.map fun bytes => bytes.drop pos.nTxPos⟩
  match (CTransaction.serializer sizes).unserialize CAutoFile.read filein with
  | .error _ => none
  | .ok (tx, _) => some tx

/-- Another block has been written. -/
def Written (env : Env) (sizes : Sizes) (files files' : DiskFiles) : Prop :=
  ∃ fuel nCurrentBlockFile block nFile nBlockPos,
    files.writeToDisk env sizes fuel nCurrentBlockFile block = some (files', nFile, nBlockPos)

end DiskFiles

/-! ## Values of their types -/

structure CTxIn.InTypes (txin : CTxIn) : Prop where
  prevout : txin.prevout.Encodable
  nSequence : txin.nSequence < 256 ^ 4

/-- The members have values of their types. -/
structure CTransaction.InTypes (tx : CTransaction) : Prop where
  nVersion : -2 ^ 31 ≤ tx.nVersion ∧ tx.nVersion < 2 ^ 31
  nTime : tx.nTime < 256 ^ 4
  vin : ∀ txin ∈ tx.vin, txin.InTypes
  vout : ∀ txout ∈ tx.vout, Int64.inRange txout.nValue = true
  nLockTime : tx.nLockTime < 256 ^ 4

instance (txin : CTxIn) : Decidable txin.InTypes :=
  decidable_of_iff ((txin.prevout.hash < 256 ^ 32 ∧ txin.prevout.n < 256 ^ 4) ∧
    txin.nSequence < 256 ^ 4) ⟨fun h => ⟨h.1, h.2⟩, fun h => ⟨h.prevout, h.nSequence⟩⟩

instance (tx : CTransaction) : Decidable tx.InTypes :=
  decidable_of_iff ((-2 ^ 31 ≤ tx.nVersion ∧ tx.nVersion < 2 ^ 31) ∧ tx.nTime < 256 ^ 4 ∧
      (∀ txin ∈ tx.vin, txin.InTypes) ∧ (∀ txout ∈ tx.vout, Int64.inRange txout.nValue = true) ∧
      tx.nLockTime < 256 ^ 4)
    ⟨fun h => ⟨h.1, h.2.1, h.2.2.1, h.2.2.2.1, h.2.2.2.2⟩,
      fun h => ⟨h.nVersion, h.nTime, h.vin, h.vout, h.nLockTime⟩⟩

section lengths

variable {α : Type} {f : α → List UInt8} {xs : List α}

theorem length_le_length_flatMap {x : α} (h : x ∈ xs) : (f x).length ≤ (xs.flatMap f).length := by
  rw [List.length_flatMap]
  exact List.single_le_sum (fun n _ => Nat.zero_le n) _ (List.mem_map_of_mem h)

theorem length_le_flatMap (h : ∀ x ∈ xs, 1 ≤ (f x).length) :
    xs.length ≤ (xs.flatMap f).length := by
  induction xs with
  | nil => exact Nat.zero_le _
  | cons x xs ih =>
    have hhead := h x List.mem_cons_self
    have htail := ih fun y hy => h y (List.mem_cons_of_mem _ hy)
    rw [List.flatMap_cons, List.length_append, List.length_cons]
    omega

end lengths

namespace CTransaction

variable {tx : CTransaction}

theorem length_serialize (tx : CTransaction) : tx.serialize.length =
    4 + 4 + (serializeVector CTxIn.serialize tx.vin).length +
      (serializeVector CTxOut.serialize tx.vout).length + 4 := by
  simp only [serialize, List.length_append, leBytesInt, length_leBytes]

/-- A transaction that is not too long can be read back. -/
theorem InTypes.encodable (h : tx.InTypes) (hsize : tx.getSerializeSize ≤ maxSize) :
    tx.Encodable := by
  rw [getSerializeSize, length_serialize] at hsize
  have hvin : (tx.vin.flatMap CTxIn.serialize).length ≤ maxSize := by
    rw [serializeVector, List.length_append] at hsize
    omega
  have hvout : (tx.vout.flatMap CTxOut.serialize).length ≤ maxSize := by
    rw [serializeVector, serializeVector, List.length_append, List.length_append] at hsize
    omega
  have hlenIn : ∀ txin : CTxIn, txin.serialize.length =
      36 + (serializeBytes txin.scriptSig).length + 4 := fun txin => by
    simp only [CTxIn.serialize, COutPoint.serialize, serializeHash, List.length_append,
      length_leBytes]
  have hlenOut : ∀ txout : CTxOut, txout.serialize.length =
      8 + (serializeBytes txout.scriptPubKey).length := fun txout => by
    simp only [CTxOut.serialize, leBytesInt, List.length_append, length_leBytes]
  refine ⟨h.nVersion, h.nTime, ⟨?_, fun txin htxin => ?_⟩, ⟨?_, fun txout htxout => ?_⟩,
    h.nLockTime⟩
  · refine (length_le_flatMap fun txin _ => ?_).trans hvin
    rw [hlenIn]
    omega
  · refine ⟨(h.vin txin htxin).prevout, ?_, (h.vin txin htxin).nSequence⟩
    have hle := (@length_le_length_flatMap _ CTxIn.serialize _ _ htxin).trans hvin
    rw [hlenIn, serializeBytes, List.length_append] at hle
    omega
  · refine (length_le_flatMap fun txout _ => ?_).trans hvout
    rw [hlenOut]
    omega
  · refine ⟨h.vout txout htxout, ?_⟩
    have hle := (@length_le_length_flatMap _ CTxOut.serialize _ _ htxout).trans hvout
    rw [hlenOut, serializeBytes, List.length_append] at hle
    omega

end CTransaction

namespace CBlock

/-! ## What the file holds -/

/-- The bytes of a block before the transaction number `i`. -/
def bytesBefore (block : CBlock) (i : Nat) : List UInt8 :=
  block.serializeHeader ++ (compactSize block.vtx.length ++
    (block.vtx.take i).flatMap CTransaction.serialize)

theorem serialize_split {block : CBlock} {i : Nat} {tx : CTransaction}
    (h : block.vtx[i]? = some tx) : ∃ after,
      block.serialize = block.bytesBefore i ++ (tx.serialize ++ after) := by
  obtain ⟨hi, hget⟩ := List.getElem?_eq_some_iff.mp h
  refine ⟨(block.vtx.drop (i + 1)).flatMap CTransaction.serialize ++
    serializeBytes block.vchBlockSig, ?_⟩
  have hvtx : block.vtx = block.vtx.take i ++ (tx :: block.vtx.drop (i + 1)) := by
    rw [← hget, List.getElem_cons_drop hi, List.take_append_drop]
  have hflat : block.vtx.flatMap CTransaction.serialize =
      (block.vtx.take i).flatMap CTransaction.serialize ++
        (tx.serialize ++ (block.vtx.drop (i + 1)).flatMap CTransaction.serialize) := by
    conv_lhs => rw [hvtx, List.flatMap_append, List.flatMap_cons]
  rw [serialize, serializeVector, hflat, bytesBefore]
  simp only [List.append_assoc]

/-- `CBlock()`. -/
def null : CBlock := ⟨1, 0, 0, 0, 0, 0, [], []⟩

/-- The sum that `ConnectBlock` starts from. -/
theorem firstTxPos_eq (sizes : Sizes) (block : CBlock) (nBlockPos : Nat) :
    block.firstTxPos nBlockPos = nBlockPos + (serializer sizes serDisk).getSerializeSize null -
      2 * Serializer.getSizeOfCompactSize 0 +
      Serializer.getSizeOfCompactSize block.vtx.length := by
  rw [firstTxPos, getSizeOfCompactSize, Serializer.length_compactSize]
  rfl

theorem length_bytesBefore (block : CBlock) (i : Nat) : (block.bytesBefore i).length =
    block.firstTxPos 0 + ((block.vtx.take i).map CTransaction.getSerializeSize).sum := by
  rw [bytesBefore, List.length_append, List.length_append, length_serializeHeader,
    length_flatMap_serialize, firstTxPos, headerSize, Nat.zero_add, Nat.add_assoc]
  rfl

end CBlock

namespace CBlock

theorem txItems_hash (env : Env) (nFile nBlockPos nTxPos : Nat) (txs : List CTransaction) :
    (txItems env nFile nBlockPos nTxPos txs).map SpendItem.hash =
      txs.map (CTransaction.getHash env) := by
  induction txs generalizing nTxPos with
  | nil => rfl
  | cons tx txs ih =>
    rw [txItems, List.map_cons, List.map_cons, ih]
    rfl

theorem item_mem_txItems {env : Env} {nFile nBlockPos nTxPos i : Nat} {txs : List CTransaction}
    {tx : CTransaction} (h : txs[i]? = some tx) :
    tx.item env ⟨nFile, nBlockPos,
      nTxPos + ((txs.take i).map CTransaction.getSerializeSize).sum⟩ ∈
      txItems env nFile nBlockPos nTxPos txs := by
  induction txs generalizing nTxPos i with
  | nil => exact absurd h (by simp)
  | cons first txs ih =>
    cases i with
    | zero =>
      obtain rfl : first = tx := Option.some.inj h
      exact List.mem_cons_self
    | succ i =>
      rw [List.take_succ_cons, List.map_cons, List.sum_cons, ← Nat.add_assoc]
      exact List.mem_cons_of_mem _ (ih h)

/-- The position that `ConnectBlock` records for a transaction. -/
theorem Connects.readTxIndex_pos {env : Env} {block : CBlock} {pindex : Uint256}
    {index index' : CBlockIndex} {queue : Map Uint256 CTxIndex} {w w' : World} (hopen : w.Open)
    (h : block.Connects env pindex index index' queue w w') {i : Nat} {tx : CTransaction}
    (htx : block.vtx[i]? = some tx) :
    ∃ txindex, w'.node.txdb.readTxIndex (tx.getHash env) = some txindex ∧
      txindex.pos = ⟨index.nFile, index.nBlockPos,
        index.nBlockPos + (block.bytesBefore i).length⟩ := by
  have hitem := @item_mem_txItems env index.nFile index.nBlockPos
    (block.firstTxPos index.nBlockPos) i block.vtx tx htx
  have hnodup : ((block.items env index.nFile index.nBlockPos).map SpendItem.hash).Nodup := by
    rw [items, txItems_hash]
    exact h.checked.nodup_hashes
  have hpos := @SpendIndex.pos_connectAll _ _ _ CDiskTxPos.null w.node.txdb.spends _ hnodup _ hitem
  rw [← h.spends hopen] at hpos
  obtain ⟨entry, hentry, hpos⟩ := Option.map_eq_some_iff.mp hpos
  obtain ⟨txindex, hread, rfl⟩ := Option.map_eq_some_iff.mp hentry
  refine ⟨txindex, hread, hpos.trans ?_⟩
  rw [length_bytesBefore, firstTxPos, firstTxPos, CTransaction.item]
  simp only [Nat.zero_add, Nat.add_assoc]

end CBlock

namespace DiskFiles

variable {env : Env} {sizes : Sizes} {files files' files₂ : DiskFiles}

/-- Files only grow. -/
def Grows (files files' : DiskFiles) : Prop :=
  ∀ (nFile : Nat) (bytes : List UInt8), files[nFile]? = some bytes →
    ∃ after, files'[nFile]? = some (bytes ++ after)

theorem appendBlockFile_some {fuel nCurrentBlockFile nFile : Nat}
    (h : files.appendBlockFile fuel nCurrentBlockFile = some nFile) :
    ¬(nFile < 1 ∨ nFile = uint32Max) ∧ (files.bytesOf nFile).length < 0x7F000000 - maxSize := by
  induction fuel generalizing nCurrentBlockFile with
  | zero => exact absurd h (Option.some_ne_none nFile).symm
  | succ fuel ih =>
    rw [appendBlockFile] at h
    split at h
    · exact absurd h (Option.some_ne_none nFile).symm
    · next hvalid =>
      split at h
      · next hshort =>
        obtain rfl := Option.some.inj h
        exact ⟨hvalid, hshort⟩
      · exact ih h

/-- What `WriteToDisk` leaves. -/
theorem writeToDisk_some {fuel nCurrentBlockFile nFile nBlockPos : Nat} {block : CBlock}
    (h : files.writeToDisk env sizes fuel nCurrentBlockFile block =
      some (files', nFile, nBlockPos)) :
    ¬(nFile < 1 ∨ nFile = uint32Max) ∧ nBlockPos < 0x7F000000 - maxSize + 8 ∧
      ∃ header, nBlockPos = (files.bytesOf nFile ++ header).length ∧
        files' = files.insert nFile (files.bytesOf nFile ++ header ++ block.serialize) := by
  obtain ⟨n, happend, h⟩ := Option.bind_eq_some_iff.mp h
  obtain ⟨rfl, hpos⟩ := Prod.mk.inj (Option.some.inj h)
  obtain ⟨rfl, rfl⟩ := Prod.mk.inj hpos
  obtain ⟨hvalid, hshort⟩ := appendBlockFile_some happend
  refine ⟨hvalid, ?_, _, rfl, by rw [CBlock.serializer_serialize sizes (by decide)]⟩
  rw [List.length_append, List.length_append, Network.length_pchMessageStart,
    length_leBytes]
  omega

theorem Written.grows (h : Written env sizes files files') : Grows files files' := by
  obtain ⟨fuel, nCurrentBlockFile, block, nFile, nBlockPos, h⟩ := h
  obtain ⟨-, -, header, -, rfl⟩ := writeToDisk_some h
  intro n bytes hbytes
  rw [Map.getElem?_insert]
  split
  · next heq =>
    rw [← heq] at hbytes
    refine ⟨header ++ block.serialize, ?_⟩
    rw [bytesOf, hbytes, List.append_assoc]
    rfl
  · exact ⟨[], by rw [List.append_nil]; exact hbytes⟩

theorem grows_of_written (h : Relation.ReflTransGen (Written env sizes) files files') :
    Grows files files' := by
  induction h with
  | refl => exact fun n bytes hbytes => ⟨[], by rw [List.append_nil]; exact hbytes⟩
  | tail _ hlast ih =>
    intro n bytes hbytes
    obtain ⟨after, hafter⟩ := ih n bytes hbytes
    obtain ⟨more, hmore⟩ := hlast.grows n _ hafter
    exact ⟨after ++ more, by rw [← List.append_assoc]; exact hmore⟩

/-- A transaction is read back from where its bytes start. -/
theorem readTx_of_bytes {tx : CTransaction} (htx : tx.Encodable) {pos : CDiskTxPos}
    (hvalid : ¬(pos.nFile < 1 ∨ pos.nFile = uint32Max)) {before after : List UInt8}
    (hpos : pos.nTxPos = before.length)
    (hbytes : files[pos.nFile]? = some (before ++ (tx.serialize ++ after))) :
    files.readTx sizes pos = some tx := by
  have hreads := (CTransaction.serializer_lawful sizes).reads tx htx CAutoFile.view
  rw [CTransaction.serializer_serialize] at hreads
  obtain ⟨s', hrun, -⟩ := @hreads.complete 0 ⟨some (tx.serialize ++ after)⟩ after rfl
  have hopen : files.openBlockFile pos.nFile 0 =
      some ⟨some (before ++ (tx.serialize ++ after))⟩ := by
    rw [openBlockFile, if_neg hvalid, hbytes]
    rfl
  have hdrop : (before ++ (tx.serialize ++ after)).drop pos.nTxPos = tx.serialize ++ after := by
    rw [hpos, List.drop_left]
  rw [readTx, hopen]
  dsimp only [bind, Option.bind, Option.map_some]
  rw [hdrop, hrun]

end DiskFiles

namespace CBlock

open DiskFiles

/-- The size limit of `CheckBlock`. -/
theorem checkBlock_size {env : Env} {adjustedTime : Int}
    {fCheckPOW fCheckMerkleRoot fCheckSig : Bool} {block : CBlock}
    (h : block.checkBlock env adjustedTime fCheckPOW fCheckMerkleRoot fCheckSig = .ok ()) :
    block.getSerializeSize ≤ maxBlockSize := by
  simp only [checkBlock, except_seq_eq_ok, require_eq_ok, Bool.and_eq_true, decide_eq_true_eq] at h
  exact h.1.2

/-- Positions point at their transactions: after a block has been written to disk and connected,
and after any number of other blocks has been written, each of its transactions is read back from
the position that the index has recorded for it. -/
theorem txPosition_reads (env : Env) (sizes : Sizes) (block : CBlock)
    (htypes : ∀ tx ∈ block.vtx, tx.InTypes) (files files₁ files₂ : DiskFiles)
    (fuel nCurrentBlockFile nFile nBlockPos : Nat)
    (hwrite : files.writeToDisk env sizes fuel nCurrentBlockFile block =
      some (files₁, nFile, nBlockPos))
    (hlater : Relation.ReflTransGen (Written env sizes) files₁ files₂)
    (pindex : Uint256) (index : CBlockIndex) (w w' : World)
    (hindex : w.node.index? pindex = some index)
    (hpos : index.nFile = nFile ∧ index.nBlockPos = nBlockPos) (hopen : w.Open)
    (hconnect : block.connectBlock env pindex false w = .ok () w') (i : Nat) (tx : CTransaction)
    (htx : block.vtx[i]? = some tx) :
    ∃ txindex, w'.node.txdb.readTxIndex (tx.getHash env) = some txindex ∧
      txindex.pos = ⟨nFile, nBlockPos, nBlockPos + (block.bytesBefore i).length⟩ ∧
      txindex.pos.nTxPos < 2 ^ 32 ∧
      (∃ after, block.serialize = block.bytesBefore i ++ (tx.serialize ++ after)) ∧
      files₂.readTx sizes txindex.pos = some tx := by
  obtain ⟨index₁, index', queue, hconnects⟩ := connectBlock_ok hopen hconnect
  obtain rfl := Option.some.inj (hindex.symm.trans hconnects.object)
  obtain ⟨rfl, rfl⟩ := hpos
  obtain ⟨txindex, hread, hposition⟩ := hconnects.readTxIndex_pos hopen htx
  obtain ⟨after, hsplit⟩ := serialize_split htx
  obtain ⟨hvalid, hshort, header, hheader, rfl⟩ := writeToDisk_some hwrite
  obtain ⟨more, hmore⟩ := grows_of_written hlater index.nFile _
    ((Map.getElem?_insert _ _ _ _).trans (if_pos rfl))
  have hblock : block.getSerializeSize ≤ maxBlockSize := by
    obtain ⟨sys, w₁, -, h⟩ := bind_eq_ok.mp hconnect
    obtain ⟨_, w₂, hcheck, -⟩ := bind_eq_ok.mp h
    exact checkBlock_size (fromExcept_eq_ok.mp hcheck).1
  have hlen : (block.bytesBefore i).length + tx.getSerializeSize ≤ block.getSerializeSize := by
    rw [getSerializeSize, hsplit, List.length_append, List.length_append,
      CTransaction.getSerializeSize]
    omega
  have hlimits : maxBlockSize ≤ maxSize ∧ 0x7F000000 - maxSize + 8 + maxBlockSize < 2 ^ 32 := by
    decide
  refine ⟨txindex, hread, hposition, by rw [hposition]; dsimp only; omega, ⟨after, hsplit⟩, ?_⟩
  have hencodable := (htypes tx (List.mem_of_getElem? htx)).encodable (by omega)
  refine @readTx_of_bytes _ _ tx hencodable _ (hposition ▸ hvalid)
    (files.bytesOf index.nFile ++ header ++ block.bytesBefore i) (after ++ more) ?_ ?_
  · rw [hposition, List.length_append, ← hheader]
  · rw [hposition]
    dsimp only
    rw [hmore, hsplit]
    simp only [List.append_assoc]

/-- A first file with something in it. -/
def sampleFiles : DiskFiles := (∅ : DiskFiles).insert 1 (List.replicate 992 0)

theorem sampleFiles_write : ∃ files₁,
    sampleFiles.writeToDisk mainNet sizes64 1 1 mintingBlock = some (files₁, 1, 1000) := by
  have happend : sampleFiles.appendBlockFile 1 1 = some 1 := by decide +kernel
  have hlen : (sampleFiles.bytesOf 1).length = 992 := by decide +kernel
  have hwrite : sampleFiles.writeToDisk mainNet sizes64 1 1 mintingBlock = some (sampleFiles.insert 1
      (sampleFiles.bytesOf 1 ++ (Network.pchMessageStart mainNet ++ leBytes 4
        ((serializer sizes64 serDisk).getSerializeSize mintingBlock)) ++
        (serializer sizes64 serDisk).serialize mintingBlock), 1,
      (sampleFiles.bytesOf 1 ++ (Network.pchMessageStart mainNet ++ leBytes 4
        ((serializer sizes64 serDisk).getSerializeSize mintingBlock))).length) := by
    rw [DiskFiles.writeToDisk, happend]
    rfl
  rw [List.length_append, hlen, List.length_append, Network.length_pchMessageStart,
    length_leBytes] at hwrite
  exact ⟨_, hwrite⟩

theorem txPosition_reads_minting : ∃ (files₁ : DiskFiles) (w' : World) (txindex : CTxIndex),
    w'.node.txdb.readTxIndex ((mintingBlock.vtx.getD 1 twoCoins).getHash mainNet) = some txindex ∧
      files₁.readTx sizes64 txindex.pos = some (mintingBlock.vtx.getD 1 twoCoins) := by
  obtain ⟨files₁, hwrite⟩ := sampleFiles_write
  obtain ⟨w', hconnect, -⟩ := mintingBlock_connects
  obtain ⟨txindex, hread, -, -, -, hfound⟩ := txPosition_reads mainNet sizes64 mintingBlock
    (by decide +kernel)
    sampleFiles files₁ files₁ 1 1 1 1000 hwrite .refl (mintingBlock.getHash mainNet)
    { CBlockIndex.ofBlock 1 1000 mintingBlock with pprev := some 2, nHeight := 2 } mintingWorld w'
    (by rw [Node.index?]; exact (Map.getElem?_insert _ _ _ _).trans (if_pos rfl)) ⟨rfl, rfl⟩ rfl
    hconnect 1 (mintingBlock.vtx.getD 1 twoCoins) rfl
  exact ⟨files₁, w', txindex, hread, hfound⟩

end CBlock

end NoLimitCoin
