import NoLimitCoin.Lib.Reader
import NoLimitCoin.Network

/-!
# The serialization templates

`serialize.h` has three families of templates: `GetSerializeSize` computes how many bytes a value
takes, `Serialize` writes them and `Unserialize` reads them from any type with a `read`.

Results:

1. `compactSize_lawful` to `set_lawful`: each template agrees with the other two of its type when
   those of the element types do.
2. `Serializer.Lawful.keeps`: what every read of a stream keeps, every `Unserialize` keeps.
-/

namespace NoLimitCoin

open Network (maxSize)

/-- How reading ends early: `std::ios_base::failure` is thrown, or the defined behaviour of the
language is left. -/
inductive Failure where
  | failure (what : String)
  | undefined (what : String)
deriving Repr, DecidableEq

/-- `s.read(pch, nSize)` of a stream type. -/
abbrev StreamRead (σ : Type) := ReadFn UInt8 Failure σ

/-- The three templates of a type. -/
structure Serializer (α : Type) where
  getSerializeSize : α → Nat
  serialize : α → List UInt8
  unserialize : {σ : Type} → StreamRead σ → StateT σ (Except Failure) α

/-- `unsigned int`. -/
def uint32 (n : Nat) : Nat := n % 2 ^ 32

/-- The three templates agree on valid values. -/
structure Serializer.Lawful {α : Type} (S : Serializer α) (Valid : α → Prop) : Prop where
  size : ∀ a, Valid a → S.getSerializeSize a = uint32 (S.serialize a).length
  reads : ∀ a, Valid a → ∀ {σ : Type} {read : StreamRead σ} (view : View read),
    Takes view (S.unserialize read) (S.serialize a) a
  keeps : ∀ {σ : Type} {read : StreamRead σ} {I : σ → Prop}, (∀ n, Preserves I (read n)) →
    Preserves I (S.unserialize read)

namespace Serializer

variable {α β σ : Type} {read : StreamRead σ} {I : σ → Prop}

theorem uint32_add_left (m n : Nat) : uint32 (uint32 m + n) = uint32 (m + n) :=
  Nat.mod_add_mod m _ n

theorem uint32_add_right (m n : Nat) : uint32 (m + uint32 n) = uint32 (m + n) :=
  Nat.add_mod_mod m n _

theorem uint32_of_lt {n : Nat} (h : n < 2 ^ 32) : uint32 n = n := Nat.mod_eq_of_lt h

/-! ## Compact sizes -/

def readUnsigned (read : StreamRead σ) (width : Nat) : StateT σ (Except Failure) Nat :=
  leNat <$> read width

/-- `GetSizeOfCompactSize`. -/
def getSizeOfCompactSize (nSize : Nat) : Nat :=
  if nSize < 253 then 1
  else if nSize ≤ 0xffff then 1 + 2
  else if nSize ≤ 0xffffffff then 1 + 4
  else 1 + 8

/-- The size behind its first byte. -/
def readSizeRet (read : StreamRead σ) (chSize : Nat) : StateT σ (Except Failure) Nat :=
  if chSize < 253 then pure chSize
  else if chSize = 253 then readUnsigned read 2
  else if chSize = 254 then readUnsigned read 4
  else readUnsigned read 8

def checkSize (nSizeRet : Nat) : StateT σ (Except Failure) Nat :=
  if nSizeRet > maxSize then throw (.failure "ReadCompactSize() : size too large")
  else pure nSizeRet

/-- `ReadCompactSize`. -/
def readCompactSize (read : StreamRead σ) : StateT σ (Except Failure) Nat :=
  readUnsigned read 1 >>= readSizeRet read >>= checkSize

theorem length_compactSize (nSize : Nat) :
    (compactSize nSize).length = getSizeOfCompactSize nSize := by
  unfold compactSize getSizeOfCompactSize
  split
  · exact length_leBytes 1 nSize
  · split
    · rw [List.length_cons, length_leBytes]
    · split <;> rw [List.length_cons, length_leBytes]

theorem readUnsigned_reads (view : View read) (width n : Nat) (h : n < 256 ^ width) :
    Takes view (readUnsigned read width) (leBytes width n) n := by
  have hnext := Takes.next view (leBytes width n)
  rw [length_leBytes] at hnext
  have hmap := hnext.map leNat
  rwa [leNat_leBytes, Nat.mod_eq_of_lt h] at hmap

theorem readUnsigned_keeps (h : ∀ n, Preserves I (read n)) (width : Nat) :
    Preserves I (readUnsigned read width) := (h width).map leNat

theorem readSize_reads (view : View read) (nSize : Nat) (h : nSize ≤ 0xffffffff) :
    Takes view (readUnsigned read 1 >>= readSizeRet read) (compactSize nSize) nSize := by
  unfold compactSize
  split
  · next hsmall =>
    rw [← List.append_nil (leBytes 1 nSize)]
    refine (readUnsigned_reads view 1 nSize (Nat.lt_trans hsmall (by decide))).bind ?_
    rw [readSizeRet, if_pos hsmall]
    exact .pure nSize
  · split
    · next hshort =>
      exact (readUnsigned_reads view 1 253 (by decide)).bind
        (readUnsigned_reads view 2 nSize (Nat.lt_of_le_of_lt hshort (by decide)))
    · exact (readUnsigned_reads view 1 254 (by decide)).bind
        (readUnsigned_reads view 4 nSize (Nat.lt_of_le_of_lt h (by decide)))

theorem readCompactSize_reads (view : View read) {nSize : Nat} (h : nSize ≤ maxSize) :
    Takes view (readCompactSize read) (compactSize nSize) nSize := by
  rw [← List.append_nil (compactSize nSize)]
  refine (readSize_reads view nSize (Nat.le_trans h (by decide))).bind ?_
  rw [checkSize, if_neg (Nat.not_lt.mpr h)]
  exact .pure nSize

theorem readCompactSize_keeps (h : ∀ n, Preserves I (read n)) : Preserves I (readCompactSize read) := by
  refine Preserves.bind (Preserves.bind (readUnsigned_keeps h 1) fun chSize => ?_) fun nSizeRet => ?_
  · unfold readSizeRet
    split
    · exact .pure _
    · split
      · exact readUnsigned_keeps h 2
      · split
        · exact readUnsigned_keeps h 4
        · exact readUnsigned_keeps h 8
  · unfold checkSize
    split
    · exact .throw _
    · exact .pure _

/-! ## Types that are copied -/

/-- A type whose values are written as they lie in memory: a fundamental type, or a plain one
under `FLATDATA`. -/
structure Flat (α : Type) where
  size : Nat
  toBytes : α → List UInt8
  ofBytes : List UInt8 → α
  /-- The values of the type. -/
  Valid : α → Prop
  size_pos : 0 < size
  size_le : size ≤ 64
  length_toBytes : ∀ a, (toBytes a).length = size
  ofBytes_toBytes : ∀ a, Valid a → ofBytes (toBytes a) = a

namespace Flat

/-- `unsigned char`, `unsigned short`, `unsigned int`, `uint64_t`. -/
def unsigned (width : Nat) (hpos : 0 < width) (hle : width ≤ 64) : Flat Nat where
  size := width
  toBytes := leBytes width
  ofBytes := leNat
  Valid n := n < 256 ^ width
  size_pos := hpos
  size_le := hle
  length_toBytes := length_leBytes width
  ofBytes_toBytes n hn := by rw [leNat_leBytes, Nat.mod_eq_of_lt hn]

/-- Two's complement, read as a signed value. -/
theorem bmod_leBytesInt {width : Nat} (hpos : 0 < width) {n : Int}
    (hn : -2 ^ (8 * width - 1) ≤ n ∧ n < 2 ^ (8 * width - 1)) :
    Int.bmod (leNat (leBytesInt width n)) (2 ^ (8 * width)) = n := by
  have hpow : (2 : Int) ^ (8 * width) = 2 * 2 ^ (8 * width - 1) := by
    rw [← Int.pow_succ']
    congr 1
    omega
  have hmod : 0 ≤ n % 2 ^ (8 * width) := Int.emod_nonneg _ (by positivity)
  have hlt : (n % 2 ^ (8 * width)).toNat < 256 ^ width := by
    have h := Int.emod_lt_of_pos n (show (0 : Int) < 2 ^ (8 * width) by positivity)
    rw [show (256 : Nat) ^ width = 2 ^ (8 * width) from by rw [Nat.pow_mul]]
    zify
    rwa [Int.toNat_of_nonneg hmod]
  rw [leBytesInt, leNat_leBytes, Nat.mod_eq_of_lt hlt, Int.toNat_of_nonneg hmod]
  have hemod := Int.emod_bmod n (2 ^ (8 * width))
  push_cast at hemod
  rw [hemod]
  apply Int.bmod_eq_of_le_mul_two <;> push_cast <;> omega

/-- `int`, `int64_t`. -/
def signed (width : Nat) (hpos : 0 < width) (hle : width ≤ 64) : Flat Int where
  size := width
  toBytes := leBytesInt width
  ofBytes bytes := Int.bmod (leNat bytes) (2 ^ (8 * width))
  Valid n := -2 ^ (8 * width - 1) ≤ n ∧ n < 2 ^ (8 * width - 1)
  size_pos := hpos
  size_le := hle
  length_toBytes _ := length_leBytes width _
  ofBytes_toBytes _ hn := bmod_leBytesInt hpos hn

/-- `char` and `unsigned char` as bytes. -/
def byte : Flat UInt8 where
  size := 1
  toBytes b := [b]
  ofBytes bytes := bytes.headD 0
  Valid _ := True
  size_pos := Nat.one_pos
  size_le := by decide
  length_toBytes _ := rfl
  ofBytes_toBytes _ _ := rfl

variable (T : Flat α)

/-- `n` values from memory. -/
def load : (n : Nat) → List UInt8 → List α
  | 0, _ => []
  | n + 1, bytes => T.ofBytes (bytes.take T.size) :: load n (bytes.drop T.size)

/-- Values in memory. -/
def store (v : List α) : List UInt8 := v.flatMap T.toBytes

theorem length_store (v : List α) : (T.store v).length = v.length * T.size := by
  rw [store, List.length_flatMap]
  simp [T.length_toBytes]

theorem load_store (v : List α) (h : ∀ a ∈ v, T.Valid a) : T.load v.length (T.store v) = v := by
  induction v with
  | nil => rfl
  | cons a v ih =>
    rw [List.forall_mem_cons] at h
    rw [List.length_cons, load, store, List.flatMap_cons, ← T.length_toBytes a, List.take_left,
      List.drop_left, T.ofBytes_toBytes a h.1]
    exact congrArg _ (ih h.2)

/-- The templates of the type itself. -/
def serializer : Serializer α where
  getSerializeSize _ := T.size
  serialize := T.toBytes
  unserialize read := T.ofBytes <$> read T.size

theorem serializer_lawful : T.serializer.Lawful T.Valid where
  size a ha := by
    show T.size = uint32 (T.toBytes a).length
    rw [T.length_toBytes, uint32_of_lt (Nat.lt_of_le_of_lt T.size_le (by decide))]
  reads a ha σ read view := by
    have hnext := Takes.next view (T.toBytes a)
    rw [T.length_toBytes] at hnext
    have hmap := hnext.map T.ofBytes
    rwa [T.ofBytes_toBytes a ha] at hmap
  keeps h := (h _).map _

end Flat

/-! ## Strings and vectors of fundamental types -/

/-- `std::basic_string<C>`. -/
def string (C : Flat α) : Serializer (List α) where
  getSerializeSize str := uint32 (getSizeOfCompactSize str.length + str.length * C.size)
  serialize str := compactSize str.length ++ C.store str
  unserialize read := do
    let nSize ← readCompactSize read
    if nSize ≠ 0 then C.load nSize <$> read (nSize * C.size) else pure []

/-- The loop over blocks of at most 5000000 bytes or so. -/
def unserializeBlocks (T : Flat α) (read : StreamRead σ) (nSize i : Nat) (v : List α) :
    StateT σ (Except Failure) (List α) :=
  if i < nSize then do
    let blk := min (nSize - i) (1 + 4999999 / T.size)
    let block ← T.load blk <$> read (blk * T.size)
    unserializeBlocks T read nSize (i + blk) (v ++ block)
  else pure v
termination_by nSize - i
decreasing_by
  have hpos := Nat.le_add_right 1 (4999999 / T.size)
  omega

/-- `std::vector<T>`. -/
def vector (T : Flat α) : Serializer (List α) where
  getSerializeSize v := uint32 (getSizeOfCompactSize v.length + v.length * T.size)
  serialize v := compactSize v.length ++ T.store v
  unserialize read := do
    let nSize ← readCompactSize read
    unserializeBlocks T read nSize 0 []

/-- No longer than `MAX_SIZE`, with valid elements. -/
def Sized (Valid : α → Prop) (v : List α) : Prop := v.length ≤ maxSize ∧ ∀ a ∈ v, Valid a

theorem store_reads (view : View read) (T : Flat α) (v : List α) (h : ∀ a ∈ v, T.Valid a) :
    Takes view (T.load v.length <$> read (v.length * T.size)) (T.store v) v := by
  have hnext := Takes.next view (T.store v)
  rw [T.length_store] at hnext
  have hmap := hnext.map (T.load v.length)
  rwa [T.load_store v h] at hmap

theorem string_lawful (C : Flat α) : (string C).Lawful (Sized C.Valid) where
  size str _ := by
    show uint32 _ = uint32 (compactSize str.length ++ C.store str).length
    rw [List.length_append, length_compactSize, C.length_store]
  reads str h σ read view := by
    refine (readCompactSize_reads view h.1).bind ?_
    split
    · exact store_reads view C str h.2
    · next hzero =>
      obtain rfl := List.length_eq_zero_iff.mp (not_not.mp hzero)
      exact .pure []
  keeps h := by
    refine (readCompactSize_keeps h).bind fun nSize => ?_
    split
    · exact (h _).map _
    · exact .pure _

theorem unserializeBlocks_reads (view : View read) (T : Flat α) {nSize i : Nat}
    {v block : List α} (hi : i + block.length = nSize) (h : ∀ a ∈ block, T.Valid a) :
    Takes view (unserializeBlocks T read nSize i v) (T.store block) (v ++ block) := by
  fun_induction unserializeBlocks T read nSize i v generalizing block with
  | case1 i v hlt blk =>
    rename_i ih
    have hblk : (block.take blk).length = blk := by
      rw [List.length_take]
      omega
    have hdrop : i + blk + (block.drop blk).length = nSize := by
      rw [List.length_drop]
      omega
    have hstore : T.store block = T.store (block.take blk) ++ T.store (block.drop blk) := by
      rw [Flat.store, Flat.store, Flat.store, ← List.flatMap_append,
        List.take_append_drop]
    have hread := store_reads view T (block.take blk) fun a ha => h a (List.mem_of_mem_take ha)
    rw [hblk] at hread
    rw [hstore]
    refine hread.bind ?_
    have hrest := ih (block.take blk) hdrop fun a ha => h a (List.mem_of_mem_drop ha)
    rwa [List.append_assoc, List.take_append_drop] at hrest
  | case2 i v hlt =>
    obtain rfl : block = [] := List.length_eq_zero_iff.mp (by omega)
    rw [List.append_nil]
    exact .pure v

theorem unserializeBlocks_keeps (h : ∀ n, Preserves I (read n)) (T : Flat α) (nSize i : Nat)
    (v : List α) : Preserves I (unserializeBlocks T read nSize i v) := by
  fun_induction unserializeBlocks T read nSize i v with
  | case1 i v hlt blk =>
    rename_i ih
    exact ((h _).map _).bind ih
  | case2 i v hlt => exact .pure v

theorem vector_lawful (T : Flat α) : (vector T).Lawful (Sized T.Valid) where
  size v _ := by
    show uint32 _ = uint32 (compactSize v.length ++ T.store v).length
    rw [List.length_append, length_compactSize, T.length_store]
  reads _ h _ _ view :=
    (readCompactSize_reads view h.1).bind (unserializeBlocks_reads view T (Nat.zero_add _) h.2)
  keeps h := (readCompactSize_keeps h).bind fun nSize => unserializeBlocks_keeps h T nSize 0 []

/-! ## Pairs -/

/-- `std::pair<K, T>`. -/
def pair (K : Serializer α) (T : Serializer β) : Serializer (α × β) where
  getSerializeSize item := uint32 (K.getSerializeSize item.1 + T.getSerializeSize item.2)
  serialize item := K.serialize item.1 ++ T.serialize item.2
  unserialize read := do
    let first ← K.unserialize read
    let second ← T.unserialize read
    pure (first, second)

theorem pair_lawful {K : Serializer α} {T : Serializer β} {ValidK : α → Prop} {ValidT : β → Prop}
    (hK : K.Lawful ValidK) (hT : T.Lawful ValidT) :
    (pair K T).Lawful fun item => ValidK item.1 ∧ ValidT item.2 where
  size item h := by
    show uint32 (K.getSerializeSize item.1 + T.getSerializeSize item.2) =
      uint32 (K.serialize item.1 ++ T.serialize item.2).length
    rw [hK.size _ h.1, hT.size _ h.2, uint32_add_left, uint32_add_right, List.length_append]
  reads _ h _ _ view := (hK.reads _ h.1 view).bind ((hT.reads _ h.2 view).map _)
  keeps h := (hK.keeps h).bind fun _ => (hT.keeps h).bind fun _ => .pure _

/-- `IMPLEMENT_SERIALIZE`: the members, one after the other. -/
def record (S : Serializer β) (members : α → β) (make : β → α) : Serializer α where
  getSerializeSize a := S.getSerializeSize (members a)
  serialize a := S.serialize (members a)
  unserialize read := make <$> S.unserialize read

theorem record_lawful {S : Serializer β} {Valid : β → Prop} {ValidA : α → Prop} {members : α → β}
    {make : β → α} (hS : S.Lawful Valid) (hvalid : ∀ a, ValidA a → Valid (members a))
    (hmake : ∀ a, ValidA a → make (members a) = a) : (record S members make).Lawful ValidA where
  size a h := hS.size _ (hvalid a h)
  reads a h _ _ view := by
    have hmap := (hS.reads _ (hvalid a h) view).map make
    rwa [hmake a h] at hmap
  keeps h := (hS.keeps h).map _

/-! ## Vectors of structured types -/

/-- `sizeof` of a structured type. -/
abbrev SizeOf := { sizeof : Nat // 0 < sizeof ∧ sizeof ≤ 5000000 }

/-- One element after the other. -/
def unserializeItems (S : Serializer α) (read : StreamRead σ) :
    (n : Nat) → StateT σ (Except Failure) (List α)
  | 0 => pure []
  | n + 1 => do
    let item ← S.unserialize read
    let items ← unserializeItems S read n
    pure (item :: items)

/-- The loop that makes room for the next elements before it reads them. -/
def unserializeChunks (S : Serializer α) (sizeof : SizeOf) (read : StreamRead σ) (nSize nMid : Nat)
    (v : List α) : StateT σ (Except Failure) (List α) :=
  if nMid < nSize then do
    let i := nMid
    let nMid := min (nMid + 5000000 / sizeof.val) nSize
    let items ← unserializeItems S read (nMid - i)
    unserializeChunks S sizeof read nSize nMid (v ++ items)
  else pure v
termination_by nSize - nMid
decreasing_by
  have hpos := Nat.div_pos sizeof.property.2 sizeof.property.1
  omega

def sizes (S : Serializer α) (nSize : Nat) (items : List α) : Nat :=
  items.foldl (fun nSize item => uint32 (nSize + S.getSerializeSize item)) nSize

/-- `std::vector<T>` with elements that have their own templates. -/
def structVector (S : Serializer α) (sizeof : SizeOf) : Serializer (List α) where
  getSerializeSize v := S.sizes (getSizeOfCompactSize v.length) v
  serialize v := compactSize v.length ++ v.flatMap S.serialize
  unserialize read := do
    let nSize ← readCompactSize read
    unserializeChunks S sizeof read nSize 0 []

theorem Lawful.sizes {S : Serializer α} {Valid : α → Prop} (hS : S.Lawful Valid) {items : List α}
    (h : ∀ a ∈ items, Valid a) (nSize : Nat) :
    uint32 (S.sizes nSize items) = uint32 (nSize + (items.flatMap S.serialize).length) := by
  induction items generalizing nSize with
  | nil => rfl
  | cons item items ih =>
    rw [List.forall_mem_cons] at h
    show uint32 (S.sizes (uint32 (nSize + S.getSerializeSize item)) items) = _
    rw [ih h.2, uint32_add_left, hS.size item h.1, Nat.add_right_comm, uint32_add_right,
      Nat.add_right_comm, List.flatMap_cons, List.length_append, Nat.add_assoc]

theorem unserializeItems_reads {S : Serializer α} {Valid : α → Prop} (hS : S.Lawful Valid)
    (view : View read) {items : List α} (h : ∀ a ∈ items, Valid a) :
    Takes view (unserializeItems S read items.length) (items.flatMap S.serialize) items := by
  induction items with
  | nil => exact .pure []
  | cons item items ih =>
    rw [List.forall_mem_cons] at h
    exact (hS.reads item h.1 view).bind ((ih h.2).map _)

theorem unserializeItems_keeps {S : Serializer α} {Valid : α → Prop} (hS : S.Lawful Valid)
    (h : ∀ n, Preserves I (read n)) (n : Nat) : Preserves I (unserializeItems S read n) := by
  induction n with
  | zero => exact .pure []
  | succ n ih => exact (hS.keeps h).bind fun _ => ih.bind fun _ => .pure _

theorem unserializeChunks_reads {S : Serializer α} {Valid : α → Prop} (hS : S.Lawful Valid)
    (sizeof : SizeOf) (view : View read) {nSize nMid : Nat} {v items : List α}
    (hnMid : nMid + items.length = nSize) (h : ∀ a ∈ items, Valid a) :
    Takes view (unserializeChunks S sizeof read nSize nMid v) (items.flatMap S.serialize)
      (v ++ items) := by
  fun_induction unserializeChunks S sizeof read nSize nMid v generalizing items with
  | case1 nMid v hlt i nMid' =>
    rename_i ih
    have hpos := Nat.div_pos sizeof.property.2 sizeof.property.1
    have htake : (items.take (nMid' - i)).length = nMid' - i := by
      rw [List.length_take]
      omega
    have hdrop : nMid' + (items.drop (nMid' - i)).length = nSize := by
      rw [List.length_drop]
      omega
    have hread := unserializeItems_reads hS view fun a ha =>
      h a (List.mem_of_mem_take (i := nMid' - i) ha)
    rw [htake] at hread
    have hrest := ih (items.take (nMid' - i)) hdrop fun a ha => h a (List.mem_of_mem_drop ha)
    rw [List.append_assoc, List.take_append_drop] at hrest
    have hsplit : items.flatMap S.serialize = (items.take (nMid' - i)).flatMap S.serialize ++
        (items.drop (nMid' - i)).flatMap S.serialize := by
      rw [← List.flatMap_append, List.take_append_drop]
    rw [hsplit]
    refine hread.bind ?_
    exact hrest
  | case2 nMid v hlt =>
    obtain rfl : items = [] := List.length_eq_zero_iff.mp (by omega)
    rw [List.append_nil]
    exact .pure v

theorem unserializeChunks_keeps {S : Serializer α} {Valid : α → Prop} (hS : S.Lawful Valid)
    (sizeof : SizeOf) (h : ∀ n, Preserves I (read n)) (nSize nMid : Nat) (v : List α) :
    Preserves I (unserializeChunks S sizeof read nSize nMid v) := by
  fun_induction unserializeChunks S sizeof read nSize nMid v with
  | case1 nMid v hlt i nMid' =>
    rename_i ih
    exact (unserializeItems_keeps hS h _).bind ih
  | case2 nMid v hlt => exact .pure v

theorem sizes_lt (S : Serializer α) {nSize : Nat} (h : nSize < 2 ^ 32) (items : List α) :
    S.sizes nSize items < 2 ^ 32 := by
  induction items generalizing nSize with
  | nil => exact h
  | cons item items ih => exact ih (Nat.mod_lt _ (by decide))

theorem getSizeOfCompactSize_lt (nSize : Nat) : getSizeOfCompactSize nSize < 2 ^ 32 := by
  unfold getSizeOfCompactSize
  split
  · decide
  · split
    · decide
    · split <;> decide

/-- A count and elements, as vectors, maps and sets have them. -/
theorem Lawful.sizes_compactSize {S : Serializer α} {Valid : α → Prop} (hS : S.Lawful Valid)
    {items : List α} (h : ∀ a ∈ items, Valid a) (nSize : Nat) :
    S.sizes (getSizeOfCompactSize nSize) items =
      uint32 (compactSize nSize ++ items.flatMap S.serialize).length := by
  rw [← uint32_of_lt (sizes_lt S (getSizeOfCompactSize_lt nSize) items), hS.sizes h,
    List.length_append, length_compactSize]

theorem structVector_lawful {S : Serializer α} {Valid : α → Prop} (hS : S.Lawful Valid)
    (sizeof : SizeOf) : (structVector S sizeof).Lawful (Sized Valid) where
  size v h := hS.sizes_compactSize h.2 v.length
  reads _ h _ _ view := (readCompactSize_reads view h.1).bind
    (unserializeChunks_reads hS sizeof view (Nat.zero_add _) h.2)
  keeps h := (readCompactSize_keeps h).bind fun nSize =>
    unserializeChunks_keeps hS sizeof h nSize 0 []

/-! ## Maps and sets -/

/-- The loop that inserts one element after the other. -/
def unserializeInto {γ : Type} (S : Serializer α) (insert : γ → α → γ) (read : StreamRead σ) :
    (n : Nat) → γ → StateT σ (Except Failure) γ
  | 0, m => pure m
  | n + 1, m => do
    let item ← S.unserialize read
    unserializeInto S insert read n (insert m item)

/-- `std::map<K, T>`; `insert` keeps the binding of a key that is there. -/
def map [Ord α] [Std.TransOrd α] (K : Serializer α) (T : Serializer β) : Serializer (Map α β) where
  getSerializeSize m := (pair K T).sizes (getSizeOfCompactSize m.size) m.toList
  serialize m := compactSize m.size ++ m.toList.flatMap (pair K T).serialize
  unserialize read := do
    let nSize ← readCompactSize read
    unserializeInto (pair K T) (fun m item => m.insertIfNew item.1 item.2) read nSize ∅

/-- `std::set<K>`. -/
def set [Ord α] [Std.TransOrd α] (K : Serializer α) : Serializer (Map α Unit) where
  getSerializeSize m := K.sizes (getSizeOfCompactSize m.size) m.keys
  serialize m := compactSize m.size ++ m.keys.flatMap K.serialize
  unserialize read := do
    let nSize ← readCompactSize read
    unserializeInto K (fun m key => m.insertIfNew key ()) read nSize ∅

theorem unserializeInto_reads {γ : Type} {S : Serializer α} {Valid : α → Prop}
    (hS : S.Lawful Valid) (insert : γ → α → γ) (view : View read) {items : List α}
    (h : ∀ a ∈ items, Valid a) (m : γ) :
    Takes view (unserializeInto S insert read items.length m) (items.flatMap S.serialize)
      (items.foldl insert m) := by
  induction items generalizing m with
  | nil => exact .pure m
  | cons item items ih =>
    rw [List.forall_mem_cons] at h
    exact (hS.reads item h.1 view).bind (ih h.2 _)

theorem unserializeInto_keeps {γ : Type} {S : Serializer α} {Valid : α → Prop}
    (hS : S.Lawful Valid) (insert : γ → α → γ) (h : ∀ n, Preserves I (read n)) (n : Nat) (m : γ) :
    Preserves I (unserializeInto S insert read n m) := by
  induction n generalizing m with
  | zero => exact .pure m
  | succ n ih => exact (hS.keeps h).bind fun _ => ih _

theorem map_lawful [Ord α] [Std.TransOrd α] {K : Serializer α} {T : Serializer β}
    {ValidK : α → Prop} {ValidT : β → Prop} (hK : K.Lawful ValidK) (hT : T.Lawful ValidT) :
    (map K T).Lawful fun m => Sized (fun item => ValidK item.1 ∧ ValidT item.2) m.toList where
  size m h := (pair_lawful hK hT).sizes_compactSize h.2 m.size
  reads m h σ read view := by
    refine (readCompactSize_reads view (by rw [← m.length_toList]; exact h.1)).bind ?_
    have hreads := unserializeInto_reads (pair_lawful hK hT)
      (fun (m : Map α β) item => m.insertIfNew item.1 item.2) view h.2 ∅
    rwa [m.length_toList, Map.foldl_insertIfNew_toList] at hreads
  keeps h := (readCompactSize_keeps h).bind fun nSize =>
    unserializeInto_keeps (pair_lawful hK hT) _ h nSize ∅

theorem set_lawful [Ord α] [Std.TransOrd α] {K : Serializer α} {Valid : α → Prop}
    (hK : K.Lawful Valid) : (set K).Lawful fun m => Sized Valid m.keys where
  size m h := hK.sizes_compactSize h.2 m.size
  reads m h σ read view := by
    refine (readCompactSize_reads view (by rw [← m.length_keys]; exact h.1)).bind ?_
    have hreads := unserializeInto_reads hK (fun (m : Map α Unit) key => m.insertIfNew key ())
      view h.2 ∅
    have hall : m.keys.foldl (fun (m : Map α Unit) key => m.insertIfNew key ()) ∅ = m := by
      rw [← Std.ExtTreeMap.map_fst_toList_eq_keys, List.foldl_map]
      exact Map.foldl_insertIfNew_toList m
    rwa [m.length_keys, hall] at hreads
  keeps h := (readCompactSize_keeps h).bind fun nSize => unserializeInto_keeps hK _ h nSize ∅

end Serializer

end NoLimitCoin
