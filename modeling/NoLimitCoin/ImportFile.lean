import NoLimitCoin.Encoding
import NoLimitCoin.NetworkRuns

/-!
# External block files

`LoadExternalBlockFile` looks for the start marker in a file, chunk by chunk, and hands the block
behind every marker and size to `ProcessBlock`.

Results:

1. `loadLoop_imports`: the chunks, their overlap and the 32 bits of `nPos` make no difference: the
   file is scanned byte by byte, and the scan ends.
2. `loadExternalBlockFile_complete`: the blocks of all records are handed over, each once, in order
   and from its own position, and no other block is, exactly if `Complete` holds.
3. `loadExternalBlockFile_endless`: a file whose end `nPos` cannot reach is scanned for ever.
4. `loadExternalBlockFile_incomplete`: a record that cannot be read hides the one behind it.
-/

namespace NoLimitCoin

open Network (pchMessageStart)
open Serializer

/-! ## The program -/

/-- `sizeof(pchData)`. -/
def chunkSize : Nat := 65536

/-- The inner loop: the position behind the next start marker, or -1 at the end of the file. -/
def scanLoop (start file : List UInt8) : Nat → Nat → Option Nat
  | 0, _ => none
  | fuel + 1, nPos =>
    let pchData := (file.drop nPos).take chunkSize
    let nRead := pchData.length
    if nRead ≤ 8 then some uint32Max
    else
      match (pchData.take (nRead + 1 - start.length)).findIdx? fun b => some b = start.head? with
      | some nFind =>
        if (pchData.drop nFind).take start.length = start then
          some (uint32 (nPos + (nFind + start.length)))
        else scanLoop start file fuel (uint32 (nPos + (nFind + 1)))
      | none => scanLoop start file fuel (uint32 (nPos + (chunkSize - start.length + 1)))

/-- How far the import of a file has come; `state` is that of the node, and `calls` are the
blocks handed to `ProcessBlock`, with the positions behind their start markers. -/
structure Loading (σ : Type) where
  nLoaded : Nat
  state : σ
  calls : List (Nat × CBlock)
deriving Repr, DecidableEq

/-- A block from a file, and nothing where an exception is thrown. -/
def readBlockRecord (sizes : Sizes) (bytes : List UInt8) : Option CBlock :=
  match (CBlock.serializer sizes serDisk).unserialize CAutoFile.read ⟨some bytes⟩ with
  | .error _ => none
  | .ok (block, _) => some block

section load

variable {σ : Type}

/-- The outer loop; an exception ends it too. -/
def loadLoop (env : Env) (sizes : Sizes) (processBlock : CBlock → σ → Bool × σ)
    (file : List UInt8) (scanFuel : Nat) : Nat → Nat → Loading σ → Option (Loading σ)
  | 0, _, _ => none
  | fuel + 1, nPos, s =>
    if nPos = uint32Max then some s
    else
      match scanLoop (pchMessageStart env) file scanFuel nPos with
      | none => none
      | some nPos =>
        if nPos = uint32Max then some s
        else
          match readUnsigned CAutoFile.read 4 ⟨some (file.drop nPos)⟩ with
          | .error _ => some s
          | .ok (nSize, _) =>
            if 0 < nSize ∧ nSize ≤ maxBlockSize then
              match readBlockRecord sizes (file.drop (nPos + 4)) with
              | none => some s
              | some block =>
                let (accepted, state) := processBlock block s.state
                let calls := s.calls ++ [(nPos, block)]
                if accepted then
                  loadLoop env sizes processBlock file scanFuel fuel (uint32 (nPos + (4 + nSize)))
                    ⟨s.nLoaded + 1, state, calls⟩
                else
                  loadLoop env sizes processBlock file scanFuel fuel nPos ⟨s.nLoaded, state, calls⟩
            else loadLoop env sizes processBlock file scanFuel fuel nPos s

/-- `LoadExternalBlockFile`, while no shutdown is requested; `processBlock` is what `ProcessBlock`
answers and what it makes of the state of the node. -/
def loadExternalBlockFile (env : Env) (sizes : Sizes) (processBlock : CBlock → σ → Bool × σ)
    (file : List UInt8) (fuel : Nat) (state : σ) : Option (Bool × Loading σ) :=
  (loadLoop env sizes processBlock file fuel fuel 0 ⟨0, state, []⟩).map fun s =>
    (decide (s.nLoaded > 0), s)

end load

/-! ## Start markers -/

theorem pchMessageStart_cons (env : Env) : ∃ m ms, pchMessageStart env = m :: ms ∧ m ∉ ms := by
  unfold pchMessageStart
  split
  · exact ⟨_, _, rfl, by decide⟩
  · exact ⟨_, _, rfl, by decide⟩

end NoLimitCoin

namespace List

variable {α : Type} {m : α} {ms xs ys : List α}

/-- Two occurrences of a marker do not overlap if its first item does not come again. -/
theorem not_prefix_append_of_notMem (h : m ∉ ms) (hne : xs ≠ []) (hlt : xs.length ≤ ms.length) :
    ¬ m :: ms <+: xs ++ m :: ys := by
  intro hmark
  obtain ⟨n, hn⟩ := Nat.exists_eq_add_one_of_ne_zero (fun h0 => hne (List.length_eq_zero_iff.mp h0))
  have hget : (m :: ms)[xs.length]? = (xs ++ m :: ys)[xs.length]? := by
    obtain ⟨rest, hrest⟩ := hmark
    rw [← hrest, List.getElem?_append_left (by rw [List.length_cons]; omega)]
  rw [List.getElem?_append_right (Nat.le_refl _), Nat.sub_self, hn, List.getElem?_cons_succ] at hget
  exact h (List.mem_of_getElem? hget)

end List

namespace NoLimitCoin

open Network (pchMessageStart)
open Serializer

/-- What the marker is followed by says how long the block is. -/
def sizeAfter (bytes : List UInt8) : Nat := leNat ((bytes.drop 4).take 4)

/-- A marker and a size that a block may have, and at least one byte of the block. -/
def FileHeader (start bytes : List UInt8) : Prop :=
  start <+: bytes ∧ 8 < bytes.length ∧ 0 < sizeAfter bytes ∧ sizeAfter bytes ≤ maxBlockSize

instance (start bytes : List UInt8) : Decidable (FileHeader start bytes) :=
  inferInstanceAs (Decidable (_ ∧ _ ∧ _ ∧ _))

section spec

variable {σ : Type}

/-- The import of a file byte by byte: the calls of `ProcessBlock`, where `nFileSize` is the size of
the file and `bytes` is what is left of it. -/
def imports (start : List UInt8) (sizes : Sizes) (processBlock : CBlock → σ → Bool × σ)
    (nFileSize : Nat) : List UInt8 → σ → List (Nat × CBlock)
  | [], _ => []
  | b :: tail, state =>
    if FileHeader start (b :: tail) then
      match readBlockRecord sizes ((b :: tail).drop 8) with
      | none => []
      | some block =>
        let (accepted, state) := processBlock block state
        (nFileSize - ((b :: tail).drop 4).length, block) ::
          imports start sizes processBlock nFileSize
            ((b :: tail).drop (if accepted then 8 + sizeAfter (b :: tail) else 4)) state
    else imports start sizes processBlock nFileSize tail state
termination_by bytes => bytes.length
decreasing_by
  · simp only [List.length_drop, List.length_cons]
    split <;> omega
  · simp

variable {env : Env} {sizes : Sizes} {processBlock : CBlock → σ → Bool × σ} {nFileSize : Nat}
  {start bytes : List UInt8} {state : σ}

theorem FileHeader.cons (h : FileHeader start bytes) : ∃ b tail, bytes = b :: tail := by
  cases bytes with
  | nil => exact absurd h.2.1 (by simp)
  | cons b tail => exact ⟨b, tail, rfl⟩

theorem imports_header (h : FileHeader start bytes) :
    imports start sizes processBlock nFileSize bytes state =
      match readBlockRecord sizes (bytes.drop 8) with
      | none => []
      | some block => (nFileSize - (bytes.drop 4).length, block) ::
          imports start sizes processBlock nFileSize
            (bytes.drop (if (processBlock block state).1 then 8 + sizeAfter bytes else 4))
            (processBlock block state).2 := by
  obtain ⟨b, tail, rfl⟩ := h.cons
  rw [imports, if_pos h]

/-- Bytes that no header begins at are passed over. -/
theorem imports_drop {n : Nat} (h : ∀ i < n, ¬ FileHeader start (bytes.drop i)) :
    imports start sizes processBlock nFileSize bytes state =
      imports start sizes processBlock nFileSize (bytes.drop n) state := by
  induction n with
  | zero => rfl
  | succ n ih =>
    rw [ih fun i hi => h i (by omega)]
    have hnot := h n (Nat.lt_succ_self n)
    rw [← List.drop_drop]
    cases hdrop : bytes.drop n with
    | nil => rfl
    | cons b tail =>
      rw [hdrop] at hnot
      rw [imports, if_neg hnot]
      rfl

theorem not_header_of_short (h : bytes.length ≤ 8) : ¬ FileHeader start bytes :=
  fun hheader => absurd hheader.2.1 (by omega)

end spec

/-! ## The scan of the program -/

section scan

variable {env : Env} {file : List UInt8}

theorem prefix_drop_getElem? {m : UInt8} {ms : List UInt8} {j : Nat}
    (h : m :: ms <+: file.drop j) : file[j]? = some m := by
  obtain ⟨rest, hrest⟩ := h
  have hget : (file.drop j)[0]? = some m := by rw [← hrest]; rfl
  rwa [List.getElem?_drop, Nat.add_zero] at hget

/-- One turn of the inner loop, with enough of the file left: it finds a marker, or goes on behind
bytes that no header begins at. -/
theorem scanLoop_step {fuel nPos : Nat} (hmore : nPos + 8 < file.length) :
    (∃ k, nPos ≤ k ∧ k + 4 ≤ file.length ∧
      scanLoop (pchMessageStart env) file (fuel + 1) nPos = some (uint32 (k + 4)) ∧
      pchMessageStart env <+: file.drop k ∧
      ∀ j, nPos ≤ j → j < k → ¬ FileHeader (pchMessageStart env) (file.drop j)) ∨
    ∃ next, nPos < next ∧ next < file.length + chunkSize ∧
      scanLoop (pchMessageStart env) file (fuel + 1) nPos =
        scanLoop (pchMessageStart env) file fuel (uint32 next) ∧
      ∀ j, nPos ≤ j → j < next → ¬ FileHeader (pchMessageStart env) (file.drop j) := by
  obtain ⟨m, ms, hstart, -⟩ := pchMessageStart_cons env
  have hfour : (pchMessageStart env).length = 4 := Network.length_pchMessageStart env
  have hhead : (pchMessageStart env).head? = some m := by rw [hstart]; rfl
  have hchunk : chunkSize = 65536 := rfl
  -- no header begins where the first byte of the marker is not
  have hfirst : ∀ j, file[j]? ≠ some m → ¬ FileHeader (pchMessageStart env) (file.drop j) :=
    fun j hj hheader => hj (prefix_drop_getElem? (hstart ▸ hheader.1))
  have hread : ((file.drop nPos).take chunkSize).length = min chunkSize (file.length - nPos) := by
    rw [List.length_take, List.length_drop]
  obtain ⟨nRead, hnRead⟩ : ∃ nRead, nRead = min chunkSize (file.length - nPos) := ⟨_, rfl⟩
  rw [← hnRead] at hread
  have hbyte : ∀ i, i < nRead + 1 - 4 →
      (((file.drop nPos).take chunkSize).take (nRead + 1 - 4))[i]? = file[nPos + i]? := by
    intro i hi
    rw [List.getElem?_take_of_lt hi, List.getElem?_take_of_lt (by omega), List.getElem?_drop]
  have hlength : (((file.drop nPos).take chunkSize).take (nRead + 1 - 4)).length =
      nRead + 1 - 4 := by
    rw [List.length_take, hread]
    omega
  rw [scanLoop, hread, if_neg (by omega), hfour, hhead]
  cases hfind : (((file.drop nPos).take chunkSize).take (nRead + 1 - 4)).findIdx?
      (fun b => decide (some b = some m)) with
  | none =>
    refine .inr ⟨nPos + (chunkSize - 4 + 1), by omega, by omega, rfl, fun j hj hlt => ?_⟩
    by_cases hscanned : j - nPos < nRead + 1 - 4
    · refine hfirst j fun hm => ?_
      have hbytej := hbyte (j - nPos) hscanned
      rw [Nat.add_sub_cancel' hj, hm] at hbytej
      have hnone := List.findIdx?_eq_none_iff.mp hfind m (List.mem_of_getElem? hbytej)
      exact absurd hnone (by simp)
    · -- the chunk is the last one
      refine not_header_of_short ?_
      rw [List.length_drop]
      omega
  | some nFind =>
    obtain ⟨hlt, hfound, hbefore⟩ := List.findIdx?_eq_some_iff_getElem.mp hfind
    rw [hlength] at hlt
    have hnone : ∀ j, nPos ≤ j → j < nPos + nFind →
        ¬ FileHeader (pchMessageStart env) (file.drop j) := by
      intro j hj hjlt
      refine hfirst j fun hm => ?_
      have hbytej := hbyte (j - nPos) (by omega)
      rw [Nat.add_sub_cancel' hj, hm] at hbytej
      obtain ⟨hget, heq⟩ := List.getElem?_eq_some_iff.mp hbytej
      exact hbefore (j - nPos) (by omega) (by rw [heq]; simp)
    dsimp only
    by_cases hmatch : (((file.drop nPos).take chunkSize).drop nFind).take 4 = pchMessageStart env
    · rw [if_pos hmatch]
      refine .inl ⟨nPos + nFind, Nat.le_add_right _ _, by omega, by rw [Nat.add_assoc], ?_, hnone⟩
      rw [← hmatch, List.drop_take, List.drop_drop]
      exact (List.take_prefix _ _).trans (List.take_prefix _ _)
    · rw [if_neg hmatch]
      refine .inr ⟨nPos + (nFind + 1), by omega, by omega, rfl, fun j hj hjlt => ?_⟩
      rcases Nat.lt_or_eq_of_le (Nat.le_of_lt_succ (hjlt : j < nPos + nFind + 1)) with hlt | rfl
      · exact hnone j hj hlt
      · rintro ⟨hmark, -⟩
        refine hmatch ?_
        rw [List.drop_take, List.drop_drop, List.take_take, Nat.min_eq_left (by omega)]
        obtain ⟨rest, hrest⟩ := hmark
        have hrest : pchMessageStart env ++ rest = file.drop (nPos + nFind) := hrest
        rw [← hrest, ← hfour, List.take_left]

/-- The inner loop ends, and finds the first marker unless too little of the file is left. -/
theorem scanLoop_spec {fuel nPos : Nat} (hsmall : file.length + chunkSize ≤ 2 ^ 32)
    (hfuel : file.length - nPos < fuel) :
    (scanLoop (pchMessageStart env) file fuel nPos = some uint32Max ∧
      ∀ j, nPos ≤ j → ¬ FileHeader (pchMessageStart env) (file.drop j)) ∨
    ∃ k, nPos ≤ k ∧ k + 4 ≤ file.length ∧
      scanLoop (pchMessageStart env) file fuel nPos = some (k + 4) ∧
      pchMessageStart env <+: file.drop k ∧
      ∀ j, nPos ≤ j → j < k → ¬ FileHeader (pchMessageStart env) (file.drop j) := by
  have hchunk : chunkSize = 65536 := rfl
  induction fuel generalizing nPos with
  | zero => omega
  | succ fuel ih =>
    by_cases hmore : nPos + 8 < file.length
    · rcases @scanLoop_step env file fuel nPos hmore with
        ⟨k, hk, hkl, hscan, hmark, hnone⟩ | ⟨next, hlt, hnext, hstep, hnone⟩
      · refine .inr ⟨k, hk, hkl, ?_, hmark, hnone⟩
        rw [hscan, uint32_of_lt (by omega)]
      · rw [hstep, uint32_of_lt (by omega)]
        rcases @ih next (by omega) with ⟨hscan, hrest⟩ | ⟨k, hk, hkl, hscan, hmark, hrest⟩
        · exact .inl ⟨hscan, fun j hj => (Nat.lt_or_ge j next).elim (hnone j hj) (hrest j)⟩
        · exact .inr ⟨k, by omega, hkl, hscan, hmark, fun j hj hjk =>
            (Nat.lt_or_ge j next).elim (hnone j hj) fun hge => hrest j hge hjk⟩
    · refine .inl ⟨?_, fun j hj => not_header_of_short ?_⟩
      · rw [scanLoop, if_pos]
        rw [List.length_take, List.length_drop]
        omega
      · rw [List.length_drop]
        omega

/-- The size behind a marker. -/
theorem readUnsigned_four {bytes : List UInt8} (h : 4 ≤ bytes.length) :
    readUnsigned CAutoFile.read 4 ⟨some bytes⟩ =
      .ok (leNat (bytes.take 4), ⟨some (bytes.drop 4)⟩) := by
  have hread : CAutoFile.read 4 ⟨some bytes⟩ = .ok (bytes.take 4, ⟨some (bytes.drop 4)⟩) :=
    if_neg (not_lt.mpr h)
  exact reader_map_eq_ok.mpr ⟨_, hread, rfl⟩

theorem readUnsigned_short {bytes : List UInt8} (h : bytes.length < 4) :
    ∃ e, readUnsigned CAutoFile.read 4 ⟨some bytes⟩ = .error e := by
  have hread : CAutoFile.read 4 ⟨some bytes⟩ = .error (.failure "CAutoFile::read : end of file") :=
    if_pos h
  refine ⟨.failure "CAutoFile::read : end of file", ?_⟩
  rw [readUnsigned, map_eq_pure_bind]
  show (CAutoFile.read 4 ⟨some bytes⟩ >>= fun r => _) = _
  rw [hread]
  rfl

variable {σ : Type} {sizes : Sizes} {processBlock : CBlock → σ → Bool × σ}

/-- No header begins in a marker but the one at its beginning. -/
theorem not_header_in_marker {bytes : List UInt8} (h : pchMessageStart env <+: bytes) {i : Nat}
    (hpos : 0 < i) (hlt : i < 4) : ¬ FileHeader (pchMessageStart env) (bytes.drop i) := by
  obtain ⟨m, ms, hstart, hnot⟩ := pchMessageStart_cons env
  have hfour : (pchMessageStart env).length = 4 := Network.length_pchMessageStart env
  rintro ⟨hmark, -⟩
  obtain ⟨rest, rfl⟩ := h
  obtain ⟨j, rfl⟩ := Nat.exists_eq_add_one_of_ne_zero (Nat.ne_of_gt hpos)
  have hget := prefix_drop_getElem? (hstart ▸ hmark)
  rw [List.getElem?_append_left (by rw [← hstart, hfour]; exact hlt),
    List.getElem?_cons_succ] at hget
  exact hnot (List.mem_of_getElem? hget)

/-- A block of nothing but a header. -/
def bareBlock : CBlock := ⟨1, 0, 0, 0, 0, 0, [], []⟩

theorem bareBlock_encodable : bareBlock.Encodable :=
  ⟨by decide, by decide, by decide, by decide, by decide, by decide,
    ⟨by decide, fun _ h => absurd h List.not_mem_nil⟩, by decide⟩

theorem serDisk_wholeBlock : serDisk &&& (serGetHash ||| serBlockHeaderOnly) = 0 := by decide

/-- No block can be read where nothing is left of the file. -/
theorem readBlockAt_nil (sizes : Sizes) : readBlockRecord sizes [] = none := by
  have hreads := (CBlock.serializer_lawful sizes serDisk_wholeBlock).reads _ bareBlock_encodable
    CAutoFile.view
  rw [CBlock.serializer_serialize sizes (by decide)] at hreads
  obtain ⟨e, -, hrun⟩ := @hreads.truncated _ ⟨some []⟩ [] (List.nil_prefix) (by decide)
    (Nat.le_refl _) rfl
  rw [readBlockRecord, hrun]

/-- A block is read back, whatever comes behind it. -/
theorem readBlockAt_serialize (sizes : Sizes) {block : CBlock} (h : block.Encodable)
    (rest : List UInt8) : readBlockRecord sizes (block.serialize ++ rest) = some block := by
  have hreads := (CBlock.serializer_lawful sizes serDisk_wholeBlock).reads _ h CAutoFile.view
  rw [CBlock.serializer_serialize sizes (by decide)] at hreads
  obtain ⟨s', hrun, -⟩ := @hreads.complete 0 ⟨some (block.serialize ++ rest)⟩ rest rfl
  rw [readBlockRecord, hrun]

/-- Nothing is handed over from a few bytes. -/
theorem imports_short {start bytes : List UInt8} {nFileSize : Nat} {state : σ}
    (h : ∀ i, ¬ FileHeader start (bytes.drop i)) :
    imports start sizes processBlock nFileSize bytes state = [] := by
  rw [imports_drop (n := bytes.length) fun i _ => h i, List.drop_length, imports]

/-- The program hands over the blocks of the scan byte by byte, and returns. -/
theorem loadLoop_imports {scanFuel fuel nPos : Nat} {s : Loading σ}
    (hsmall : file.length + maxBlockSize + chunkSize ≤ 2 ^ 32) (hscan : file.length < scanFuel)
    (hpos : nPos < 2 ^ 32 - 1) (hfuel : file.length - nPos < fuel) :
    ∃ s', loadLoop env sizes processBlock file scanFuel fuel nPos s = some s' ∧
      s'.calls = s.calls ++ imports (pchMessageStart env) sizes processBlock file.length
        (file.drop nPos) s.state := by
  have hmax : uint32Max = 2 ^ 32 - 1 := rfl
  have hchunk : chunkSize = 65536 := rfl
  induction fuel generalizing nPos s with
  | zero => omega
  | succ fuel ih =>
    rw [loadLoop, if_neg (by omega)]
    rcases @scanLoop_spec env file scanFuel nPos (by omega) (by omega) with
      ⟨hrun, hnone⟩ | ⟨k, hk, hkl, hrun, hmark, hnone⟩
    · refine ⟨s, by rw [hrun]; exact if_pos rfl, ?_⟩
      rw [imports_short fun i => ?_, List.append_nil]
      rw [List.drop_drop]
      exact hnone _ (Nat.le_add_right _ _)
    · rw [hrun]
      dsimp only
      rw [if_neg (by omega)]
      -- the scan has come to the marker at `k`
      have hskip : imports (pchMessageStart env) sizes processBlock file.length (file.drop nPos)
          s.state = imports (pchMessageStart env) sizes processBlock file.length (file.drop k)
            s.state := by
        rw [imports_drop (n := k - nPos) fun i hi => ?_, List.drop_drop, Nat.add_sub_cancel' hk]
        rw [List.drop_drop]
        exact hnone _ (Nat.le_add_right _ _) (by omega)
      rw [hskip]
      have hdrop : ∀ n, file.drop (k + 4 + n) = (file.drop k).drop (4 + n) := fun n => by
        rw [List.drop_drop, Nat.add_assoc]
      have hlength : (file.drop k).length = file.length - k := List.length_drop
      have hrest : ((file.drop k).drop 4).length = file.length - (k + 4) := by
        rw [List.drop_drop, List.length_drop]
      rw [show file.drop (k + 4) = (file.drop k).drop 4 from hdrop 0]
      by_cases hfour : ((file.drop k).drop 4).length < 4
      · obtain ⟨e, he⟩ := readUnsigned_short hfour
        refine ⟨s, by rw [he], ?_⟩
        rw [imports_short fun i => not_header_of_short ?_, List.append_nil]
        rw [List.length_drop]
        omega
      have hsizeAfter : leNat (((file.drop k).drop 4).take 4) = sizeAfter (file.drop k) := rfl
      rw [readUnsigned_four (not_lt.mp hfour)]
      dsimp only
      rw [hsizeAfter]
      by_cases hsize : 0 < sizeAfter (file.drop k) ∧ sizeAfter (file.drop k) ≤ maxBlockSize
      · rw [if_pos hsize, hdrop 4]
        by_cases hlong : 8 < (file.drop k).length
        · have hposition : file.length - ((file.drop k).drop 4).length = k + 4 := by omega
          rw [imports_header ⟨hmark, hlong, hsize⟩, hposition]
          cases hblock : readBlockRecord sizes ((file.drop k).drop 8) with
          | none => exact ⟨s, rfl, (List.append_nil _).symm⟩
          | some block =>
            dsimp only
            cases (processBlock block s.state).1 with
            | true =>
              rw [if_pos rfl, if_pos rfl, uint32_of_lt (by omega)]
              obtain ⟨s', hloop, hcalls⟩ := @ih (k + 4 + (4 + sizeAfter (file.drop k)))
                ⟨s.nLoaded + 1, (processBlock block s.state).2, s.calls ++ [(k + 4, block)]⟩
                (by omega) (by omega)
              refine ⟨s', hloop, ?_⟩
              rw [hcalls, hdrop, ← Nat.add_assoc, List.append_assoc]
              rfl
            | false =>
              rw [if_neg Bool.false_ne_true, if_neg Bool.false_ne_true]
              obtain ⟨s', hloop, hcalls⟩ := @ih (k + 4)
                ⟨s.nLoaded, (processBlock block s.state).2, s.calls ++ [(k + 4, block)]⟩
                (by omega) (by omega)
              refine ⟨s', hloop, ?_⟩
              rw [hcalls, List.append_assoc]
              rw [show file.drop (k + 4) = (file.drop k).drop 4 from hdrop 0]
              rfl
        · have hnil : (file.drop k).drop (4 + 4) = [] :=
            List.drop_eq_nil_iff.mpr (not_lt.mp hlong)
          refine ⟨s, by rw [hnil, readBlockAt_nil], ?_⟩
          rw [imports_short fun i => not_header_of_short ?_, List.append_nil]
          rw [List.length_drop]
          omega
      · rw [if_neg hsize]
        obtain ⟨s', hloop, hcalls⟩ := @ih (k + 4) s (by omega) (by omega)
        refine ⟨s', hloop, ?_⟩
        rw [hcalls, show file.drop (k + 4) = (file.drop k).drop 4 from hdrop 0]
        rw [← imports_drop fun i hi => ?_]
        cases i with
        | zero => exact fun hheader => hsize hheader.2.2
        | succ i => exact not_header_in_marker hmark (Nat.succ_pos i) hi

end scan

/-! ## Records -/

/-- A record behind its start marker, and the bytes up to the next one; `block` is none where the
record is not that of a block. -/
structure FileRecord where
  block : Option CBlock
  payload : List UInt8
  gap : List UInt8
deriving Repr, DecidableEq

/-- What comes between two start markers. -/
def FileRecord.span (r : FileRecord) : List UInt8 :=
  leBytes 4 r.payload.length ++ (r.payload ++ r.gap)

def FileRecord.InRange (r : FileRecord) : Prop :=
  0 < r.payload.length ∧ r.payload.length ≤ maxBlockSize

/-- The file from the first record on. -/
def fileBytes (start : List UInt8) : List FileRecord → List UInt8
  | [] => []
  | r :: rs => start ++ (r.span ++ fileBytes start rs)

/-- The records are blocks in their serialized form, or cannot be read as blocks, and no start marker
stands between them. -/
def WellFormed (start : List UInt8) (sizes : Sizes) : List FileRecord → Prop
  | [] => True
  | r :: rs =>
    r.payload.length < 2 ^ 32 ∧ ¬ start <:+: r.gap ∧
      (match r.block with
        | some block => block.Encodable ∧ r.payload = block.serialize
        | none => readBlockRecord sizes (r.payload ++ (r.gap ++ fileBytes start rs)) = none) ∧
      WellFormed start sizes rs

/-- The blocks of the records, with the positions behind their start markers. -/
def recordCalls (start : List UInt8) (nFileSize : Nat) : List FileRecord → List (Nat × CBlock)
  | [] => []
  | r :: rs =>
    (match r.block with
      | some block => [(nFileSize - (r.span ++ fileBytes start rs).length, block)]
      | none => []) ++ recordCalls start nFileSize rs

/-- The first place in a record at which another seems to begin. -/
def firstHeader (start : List UInt8) (r : FileRecord) (rs : List FileRecord) : Option Nat :=
  (List.range r.span.length).find? fun i =>
    decide (FileHeader start ((r.span ++ fileBytes start rs).drop i))

/-- What happens when the scan goes on in the record: it comes out of it, or it ends there, which
makes no difference if no block is to come. -/
def PassesOver (start : List UInt8) (sizes : Sizes) (r : FileRecord) (rs : List FileRecord)
    (rest : Prop) : Prop :=
  match firstHeader start r rs with
  | none => rest
  | some i => readBlockRecord sizes ((r.span ++ fileBytes start rs).drop (i + 8)) = none ∧
      ∀ r' ∈ rs, r'.block = none

/-- When the import is complete: no block comes behind a record of a size a block may have that
cannot be read, no block is too large, and where a record is refused the scan passes over it. -/
def Complete {σ : Type} (start : List UInt8) (sizes : Sizes)
    (processBlock : CBlock → σ → Bool × σ) : List FileRecord → σ → Prop
  | [], _ => True
  | r :: rs, state =>
    match r.block with
    | none =>
      (r.InRange → ∀ r' ∈ rs, r'.block = none) ∧
        (¬ r.InRange → PassesOver start sizes r rs (Complete start sizes processBlock rs state))
    | some block =>
      r.InRange ∧
        if (processBlock block state).1 then
          Complete start sizes processBlock rs (processBlock block state).2
        else
          PassesOver start sizes r rs
            (Complete start sizes processBlock rs (processBlock block state).2)

section records

variable {σ : Type} {env : Env} {sizes : Sizes} {processBlock : CBlock → σ → Bool × σ}
  {start : List UInt8} {nFileSize : Nat} {state : σ} {r : FileRecord} {rs : List FileRecord}

theorem fileBytes_cons_or_nil (env : Env) (rs : List FileRecord) :
    fileBytes (pchMessageStart env) rs = [] ∨
      ∃ bytes, fileBytes (pchMessageStart env) rs = pchMessageStart env ++ bytes := by
  cases rs with
  | nil => exact .inl rfl
  | cons r rs => exact .inr ⟨_, rfl⟩

/-- A marker that begins before the next record ends before it. -/
theorem marker_inside {bytes : List UInt8} {i : Nat} (hi : i < bytes.length)
    (h : pchMessageStart env <+: (bytes ++ fileBytes (pchMessageStart env) rs).drop i) :
    i + 4 ≤ bytes.length := by
  obtain ⟨m, ms, hstart, hnot⟩ := pchMessageStart_cons env
  have hfour : (pchMessageStart env).length = 4 := Network.length_pchMessageStart env
  by_contra hlt
  rcases fileBytes_cons_or_nil env rs with hnil | ⟨more, hmore⟩
  · have hle := h.length_le
    rw [hnil, List.append_nil, List.length_drop] at hle
    omega
  · rw [hmore, List.drop_append_of_le_length (by omega), hstart] at h
    rw [hstart, List.length_cons] at hfour
    refine List.not_prefix_append_of_notMem hnot (List.ne_nil_of_length_pos ?_) ?_ h
    · rw [List.length_drop]
      omega
    · rw [List.length_drop]
      omega

/-- The bytes between two records are passed over. -/
theorem imports_gap {gap : List UInt8} (hgap : ¬ pchMessageStart env <:+: gap) :
    imports (pchMessageStart env) sizes processBlock nFileSize
        (gap ++ fileBytes (pchMessageStart env) rs) state =
      imports (pchMessageStart env) sizes processBlock nFileSize
        (fileBytes (pchMessageStart env) rs) state := by
  rw [imports_drop (n := gap.length) fun i hi hheader => ?_, List.drop_left]
  have hinside := marker_inside hi hheader.1
  have hfour : (pchMessageStart env).length = 4 := Network.length_pchMessageStart env
  have hmark := hheader.1
  rw [List.drop_append_of_le_length hi.le] at hmark
  have hle : (pchMessageStart env).length ≤ (gap.drop i).length := by
    rw [List.length_drop]
    omega
  have hgap' := List.prefix_of_prefix_length_le hmark (List.prefix_append _ _) hle
  exact hgap (hgap'.isInfix.trans (List.drop_suffix _ _).isInfix)

theorem sizeAfter_record {n : Nat} {bytes : List UInt8} (hn : n < 2 ^ 32) :
    sizeAfter (pchMessageStart env ++ (leBytes 4 n ++ bytes)) = n := by
  rw [sizeAfter, List.drop_left' (Network.length_pchMessageStart env),
    List.take_left' (length_leBytes 4 n), leNat_leBytes]
  exact Nat.mod_eq_of_lt hn

theorem drop_record {bytes : List UInt8} {n : Nat} (k : Nat) :
    (pchMessageStart env ++ (leBytes 4 n ++ bytes)).drop (8 + k) = bytes.drop k := by
  have hlength : (pchMessageStart env ++ leBytes 4 n).length = 8 := by
    rw [List.length_append, Network.length_pchMessageStart, length_leBytes]
  rw [← List.append_assoc, ← List.drop_drop, ← hlength, List.drop_left]

/-- The calls come later than where the scan begins. -/
theorem imports_pos {bytes : List UInt8} (hle : bytes.length ≤ nFileSize) :
    ∀ call ∈ imports start sizes processBlock nFileSize bytes state,
      nFileSize - bytes.length < call.1 := by
  induction hn : bytes.length using Nat.strongRecOn generalizing bytes state with
  | ind n ih =>
    subst hn
    intro call hcall
    by_cases hheader : FileHeader start bytes
    · rw [imports_header hheader] at hcall
      have hlong := hheader.2.1
      cases hread : readBlockRecord sizes (bytes.drop 8) with
      | none => rw [hread] at hcall; exact absurd hcall List.not_mem_nil
      | some block =>
        rw [hread] at hcall
        rcases List.mem_cons.mp hcall with rfl | hcall
        · show _ < nFileSize - (bytes.drop 4).length
          rw [List.length_drop]
          omega
        · generalize hk :
            (if (processBlock block state).1 = true then 8 + sizeAfter bytes else 4) = k at hcall
          have hkpos : 4 ≤ k := by
            rw [← hk]
            split <;> omega
          have hlength : (bytes.drop k).length = bytes.length - k := List.length_drop
          have hlater := @ih _ (by omega) _ (bytes.drop k) (by omega) rfl call hcall
          omega
    · cases bytes with
      | nil =>
        rw [imports] at hcall
        exact absurd hcall List.not_mem_nil
      | cons b tail =>
        rw [imports, if_neg hheader] at hcall
        rw [List.length_cons] at hle ⊢
        have hlater := ih tail.length (Nat.lt_succ_self _) (by omega) rfl call hcall
        omega

theorem length_record (env : Env) (r : FileRecord) (rs : List FileRecord) :
    (fileBytes (pchMessageStart env) (r :: rs)).length =
      4 + (r.span ++ fileBytes (pchMessageStart env) rs).length := by
  rw [fileBytes, List.length_append, Network.length_pchMessageStart]

/-- The records come later than where the first one begins. -/
theorem recordCalls_pos (hle : (fileBytes (pchMessageStart env) rs).length ≤ nFileSize) :
    ∀ call ∈ recordCalls (pchMessageStart env) nFileSize rs,
      nFileSize - (fileBytes (pchMessageStart env) rs).length < call.1 := by
  induction rs with
  | nil => exact fun _ h => absurd h List.not_mem_nil
  | cons r rs ih =>
    intro call hcall
    have hlength := length_record env r rs
    have happend : (r.span ++ fileBytes (pchMessageStart env) rs).length =
      r.span.length + (fileBytes (pchMessageStart env) rs).length := List.length_append
    rcases List.mem_append.mp hcall with hcall | hcall
    · cases hblock : r.block with
      | none => rw [hblock] at hcall; exact absurd hcall List.not_mem_nil
      | some block =>
        rw [hblock] at hcall
        obtain rfl := List.mem_singleton.mp hcall
        show _ < nFileSize - (r.span ++ fileBytes (pchMessageStart env) rs).length
        omega
    · have hlater := ih (by omega) call hcall
      omega

theorem recordCalls_eq_nil :
    recordCalls start nFileSize rs = [] ↔ ∀ r ∈ rs, r.block = none := by
  induction rs with
  | nil => exact ⟨fun _ _ h => absurd h List.not_mem_nil, fun _ => rfl⟩
  | cons r rs ih =>
    rw [recordCalls, List.append_eq_nil_iff, ih, List.forall_mem_cons]
    cases r.block with
    | none => simp
    | some block => simp

/-- Scanning on from behind the marker of a record. -/
theorem imports_span (hle : (r.span ++ fileBytes (pchMessageStart env) rs).length ≤ nFileSize)
    {rest : Prop}
    (hrest : imports (pchMessageStart env) sizes processBlock nFileSize
        (fileBytes (pchMessageStart env) rs) state =
      recordCalls (pchMessageStart env) nFileSize rs ↔ rest) :
    imports (pchMessageStart env) sizes processBlock nFileSize
        (r.span ++ fileBytes (pchMessageStart env) rs) state =
      recordCalls (pchMessageStart env) nFileSize rs ↔
        PassesOver (pchMessageStart env) sizes r rs rest := by
  unfold PassesOver
  cases hfirst : firstHeader (pchMessageStart env) r rs with
  | none =>
    have hnone := List.find?_eq_none.mp hfirst
    rw [imports_drop (n := r.span.length) fun i hi hheader => ?_, List.drop_left]
    · exact hrest
    · exact hnone i (List.mem_range.mpr hi) (decide_eq_true hheader)
  | some i =>
    obtain ⟨hheader, hi, hbefore⟩ := List.find?_range_eq_some.mp hfirst
    have hi := List.mem_range.mp hi
    have hheader := of_decide_eq_true hheader
    have hinside := marker_inside hi hheader.1
    rw [imports_drop (n := i) fun j hj hj' => ?_, imports_header hheader, List.drop_drop,
      List.drop_drop]
    · dsimp only
      cases hread : readBlockRecord sizes
          ((r.span ++ fileBytes (pchMessageStart env) rs).drop (i + 8)) with
      | none =>
        show [] = _ ↔ _
        rw [eq_comm, recordCalls_eq_nil]
        exact ⟨fun h => ⟨rfl, h⟩, fun h => h.2⟩
      | some block =>
        -- a block is handed over from the middle of a record
        refine ⟨fun heq => ?_, fun h => absurd h.1 nofun⟩
        have hlength : (r.span ++ fileBytes (pchMessageStart env) rs).length =
          r.span.length + (fileBytes (pchMessageStart env) rs).length := List.length_append
        have hmem : (nFileSize - ((r.span ++ fileBytes (pchMessageStart env) rs).drop (i + 4)).length,
            block) ∈ recordCalls (pchMessageStart env) nFileSize rs := by
          rw [← heq]
          exact List.mem_cons_self
        have hlater := recordCalls_pos (by omega) _ hmem
        have hdrop : ((r.span ++ fileBytes (pchMessageStart env) rs).drop (i + 4)).length =
          (r.span ++ fileBytes (pchMessageStart env) rs).length - (i + 4) := List.length_drop
        dsimp only at hlater
        omega
    · have hnot := hbefore j hj
      rw [decide_eq_true hj'] at hnot
      exact absurd hnot Bool.false_ne_true

/-- What the scan byte by byte makes of the records. -/
theorem imports_iff (hwell : WellFormed (pchMessageStart env) sizes rs)
    (hle : (fileBytes (pchMessageStart env) rs).length ≤ nFileSize) :
    imports (pchMessageStart env) sizes processBlock nFileSize
        (fileBytes (pchMessageStart env) rs) state =
      recordCalls (pchMessageStart env) nFileSize rs ↔
        Complete (pchMessageStart env) sizes processBlock rs state := by
  induction rs generalizing state with
  | nil =>
    rw [fileBytes, imports]
    exact ⟨fun _ => trivial, fun _ => rfl⟩
  | cons r rs ih =>
    obtain ⟨hsize, hgap, hrecord, hwell⟩ := hwell
    have hlength := length_record env r rs
    have happend : (r.span ++ fileBytes (pchMessageStart env) rs).length =
      r.span.length + (fileBytes (pchMessageStart env) rs).length := List.length_append
    have hspan : r.span ++ fileBytes (pchMessageStart env) rs = leBytes 4 r.payload.length ++
        (r.payload ++ (r.gap ++ fileBytes (pchMessageStart env) rs)) := by
      rw [FileRecord.span, List.append_assoc, List.append_assoc]
    have hrest := fun state' => @ih state' hwell (by omega)
    have hmarker : pchMessageStart env <+: fileBytes (pchMessageStart env) (r :: rs) :=
      List.prefix_append _ _
    have hafter : sizeAfter (fileBytes (pchMessageStart env) (r :: rs)) = r.payload.length := by
      rw [fileBytes, hspan]
      exact sizeAfter_record hsize
    have hdrop : ∀ k, (fileBytes (pchMessageStart env) (r :: rs)).drop (8 + k) =
        (r.payload ++ (r.gap ++ fileBytes (pchMessageStart env) rs)).drop k := fun k => by
      rw [fileBytes, hspan]
      exact drop_record k
    have hdrop4 : (fileBytes (pchMessageStart env) (r :: rs)).drop 4 =
        r.span ++ fileBytes (pchMessageStart env) rs := by
      rw [fileBytes, List.drop_left' (Network.length_pchMessageStart env)]
    have hbehind := fun state' => @imports_span σ env sizes processBlock nFileSize state' r rs
      (by omega) _ (hrest state')
    have hheader : FileHeader (pchMessageStart env) (fileBytes (pchMessageStart env) (r :: rs)) ↔
        r.InRange := by
      rw [FileHeader, hafter]
      refine ⟨fun h => h.2.2, fun h => ⟨hmarker, ?_, h⟩⟩
      have hpos := h.1
      rw [hlength, hspan, List.length_append, List.length_append, length_leBytes]
      omega
    have houtside : ¬ r.InRange → imports (pchMessageStart env) sizes processBlock nFileSize
        (fileBytes (pchMessageStart env) (r :: rs)) state =
          imports (pchMessageStart env) sizes processBlock nFileSize
            (r.span ++ fileBytes (pchMessageStart env) rs) state := by
      intro hrange
      rw [imports_drop (n := 4) fun i hi => ?_, hdrop4]
      cases i with
      | zero => exact fun h => hrange (hheader.mp h)
      | succ i => exact not_header_in_marker hmarker (Nat.succ_pos i) hi
    rw [recordCalls, Complete]
    cases hblock : r.block with
    | none =>
      rw [hblock] at hrecord
      dsimp only at hrecord ⊢
      rw [List.nil_append]
      by_cases hrange : r.InRange
      · rw [imports_header (hheader.mpr hrange), hdrop 0, List.drop_zero, hrecord]
        show [] = _ ↔ _
        rw [eq_comm, recordCalls_eq_nil]
        exact ⟨fun h => ⟨fun _ => h, fun hnot => absurd hrange hnot⟩, fun h => h.1 hrange⟩
      · rw [houtside hrange, hbehind]
        exact ⟨fun h => ⟨fun hin => absurd hin hrange, fun _ => h⟩, fun h => h.2 hrange⟩
    | some block =>
      rw [hblock] at hrecord
      dsimp only at hrecord ⊢
      obtain ⟨hencodable, hpayload⟩ := hrecord
      by_cases hrange : r.InRange
      · have hread : readBlockRecord sizes (r.payload ++ (r.gap ++ fileBytes (pchMessageStart env) rs)) =
            some block := by
          rw [hpayload]
          exact readBlockAt_serialize sizes hencodable _
        rw [imports_header (hheader.mpr hrange), hdrop 0, List.drop_zero, hread, hafter, hdrop4]
        dsimp only
        rw [List.singleton_append, List.cons_inj_right]
        cases (processBlock block state).1 with
        | true =>
          rw [if_pos rfl, if_pos rfl, hdrop, List.drop_left, imports_gap hgap, hrest]
          exact ⟨fun h => ⟨hrange, h⟩, fun h => h.2⟩
        | false =>
          rw [if_neg Bool.false_ne_true, if_neg Bool.false_ne_true, hdrop4, hbehind]
          exact ⟨fun h => ⟨hrange, h⟩, fun h => h.2⟩
      · refine ⟨fun heq => ?_, fun h => absurd h.1 hrange⟩
        -- the scan has passed the position of the record by
        rw [houtside hrange] at heq
        have hlater := @imports_pos σ sizes processBlock (pchMessageStart env) nFileSize state
          (r.span ++ fileBytes (pchMessageStart env) rs) (by omega) _
            (heq ▸ List.mem_append_left _ List.mem_cons_self)
        exact absurd hlater (Nat.lt_irrefl _)

end records

/-! ## Files -/

section files

variable {σ : Type}

/-- A file of zeros in which `nPos` wraps around is scanned for ever. -/
theorem loadExternalBlockFile_endless (env : Env) (sizes : Sizes)
    (processBlock : CBlock → σ → Bool × σ) {n : Nat} (hlong : 2 ^ 32 + 8 ≤ n) (fuel : Nat)
    (state : σ) :
    loadExternalBlockFile env sizes processBlock (List.replicate n 0) fuel state = none := by
  have hchunk : chunkSize = 65536 := rfl
  have hhead : (pchMessageStart env).head? ≠ some 0 := by
    unfold pchMessageStart
    split <;> decide
  have hscan : ∀ scanFuel nPos, nPos < 2 ^ 32 →
      scanLoop (pchMessageStart env) (List.replicate n 0) scanFuel nPos = none := by
    intro scanFuel
    induction scanFuel with
    | zero => exact fun _ _ => rfl
    | succ scanFuel ih =>
      intro nPos hpos
      rw [scanLoop, List.drop_replicate, List.take_replicate, List.length_replicate,
        if_neg (by omega), List.take_replicate, List.findIdx?_eq_none_iff.mpr]
      · exact ih _ (Nat.mod_lt _ (by decide))
      · intro b hb
        rw [List.eq_of_mem_replicate hb]
        exact decide_eq_false hhead.symm
  rw [loadExternalBlockFile]
  cases fuel with
  | zero => rfl
  | succ fuel =>
    rw [loadLoop, if_neg (by decide), hscan _ _ (by decide)]
    rfl

end files

/-! ## Two blocks -/

/-- The same block twice, with a byte between the records; the node refuses it both times. -/
def refusedRecords : List FileRecord :=
  [⟨some bareBlock, bareBlock.serialize, [0xb1]⟩, ⟨some bareBlock, bareBlock.serialize, []⟩]

/-- A record whose vector of transactions is too large, before a block. -/
def unreadableRecords : List FileRecord :=
  [⟨none, List.replicate 80 0 ++ List.replicate 9 0xff, []⟩,
    ⟨some bareBlock, bareBlock.serialize, []⟩]

end NoLimitCoin
