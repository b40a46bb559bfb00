import NoLimitCoin.ScriptRuns
import NoLimitCoin.InterpreterLimits

/-!
# Building scripts

`operator<<` of `CScript` and `HasCanonicalPushes` of `script.cpp`.  What has been appended is
read back by `GetOp`, instruction by instruction.

Results:
1. `setvch_getvch`, `length_getvch_le`: the bytes of a number are the shortest that stand for it.
2. `parsed_build`: `GetOp` reads the items of a script.
3. `evalScript_build`: what the pushes leave.
4. `build_parsed`: both, with canonical pushes and the bounds of `GetOp` for every byte string.
-/

namespace NoLimitCoin

namespace Interpreter

/-! ## Numbers as bytes -/

theorem ofLeBytes_append (m n : Valtype) :
    ofLeBytes (m ++ n) = ofLeBytes m + 256 ^ m.length * ofLeBytes n := by
  induction m with
  | nil => rw [List.nil_append, ofLeBytes, List.length_nil, Nat.pow_zero, Nat.one_mul, Nat.zero_add]
  | cons b m ih =>
    rw [List.cons_append, ofLeBytes, ofLeBytes, ih, List.length_cons, Nat.pow_succ, Nat.mul_add,
      Nat.mul_comm (256 ^ m.length) 256, Nat.mul_assoc, Nat.add_assoc]

/-- The magnitude leaves room for the sign and takes no byte that it does not need. -/
structure Magnitude (vch : Valtype) (n : Nat) : Prop where
  value : ofLeBytes vch = n
  room : 2 * n < 256 ^ vch.length
  needed : 0 < n → 256 ^ (vch.length - 1) ≤ 2 * n
  nil : n = 0 → vch = []

theorem magnitude_numberBytes {fuel n : Nat} (h : n < 256 ^ fuel) :
    Magnitude (CScript.numberBytes fuel n) n := by
  have hbyte : ∀ k, k < 256 → (UInt8.ofNat k).toNat = k := by
    intro k hk
    rw [UInt8.toNat_ofNat']
    exact Nat.mod_eq_of_lt hk
  induction fuel generalizing n with
  | zero =>
    obtain rfl : n = 0 := Nat.lt_one_iff.mp h
    exact ⟨rfl, by decide, fun hpos => absurd hpos (Nat.lt_irrefl 0), fun _ => rfl⟩
  | succ fuel ih =>
    rw [CScript.numberBytes]
    split
    · next hzero =>
      subst hzero
      exact ⟨rfl, by decide, fun hpos => absurd hpos (Nat.lt_irrefl 0), fun _ => rfl⟩
    next hne =>
    split
    · next hsmall =>
      refine ⟨?_, ?_, fun hpos => ?_, fun hzero => absurd hzero hne⟩
      · simp only [ofLeBytes, hbyte n (by omega)]
        omega
      · rw [List.length_singleton]
        omega
      · rw [List.length_singleton, Nat.sub_self, Nat.pow_zero]
        omega
    next hlarge =>
    split
    · next htop =>
      refine ⟨?_, ?_, fun hpos => ?_, fun hzero => absurd hzero hne⟩
      · simp only [ofLeBytes, hbyte (n % 256) (Nat.mod_lt _ (by decide))]
        show n % 256 + 256 * (0 + 256 * 0) = n
        omega
      · show 2 * n < 256 ^ 2
        omega
      · show 256 ^ 1 ≤ 2 * n
        omega
    · next hmore =>
      have hrest := @ih (n / 256) (by
        rw [Nat.pow_succ] at h
        omega)
      have hlength : 1 ≤ (CScript.numberBytes fuel (n / 256)).length := by
        refine List.length_pos_iff.mpr fun hnil => hmore ?_
        have hvalue := hrest.value
        rw [hnil] at hvalue
        exact hvalue.symm
      have hroom := hrest.room
      have hneeded := hrest.needed (Nat.pos_of_ne_zero hmore)
      have hvalue := hrest.value
      obtain ⟨k, hk⟩ := Nat.exists_eq_add_of_le' hlength
      rw [hk, Nat.pow_succ] at hroom
      rw [hk, Nat.add_sub_cancel] at hneeded
      refine ⟨?_, ?_, fun hpos => ?_, fun hzero => absurd hzero hne⟩
      · rw [ofLeBytes, hbyte (n % 256) (Nat.mod_lt _ (by decide)), hvalue]
        exact Nat.mod_add_div n 256
      · rw [List.length_cons, hk, Nat.pow_succ, Nat.pow_succ]
        omega
      · rw [List.length_cons, Nat.add_sub_cancel, hk, Nat.pow_succ]
        omega

theorem magnitude_getvch (n : Nat) :
    Magnitude (CScript.numberBytes (Nat.log2 n / 8 + 1) n) n := by
  refine magnitude_numberBytes ?_
  have hlog : n < 2 ^ (Nat.log2 n + 1) := Nat.lt_log2_self
  have hpow : (2 : Nat) ^ (Nat.log2 n + 1) ≤ 2 ^ (8 * (Nat.log2 n / 8 + 1)) :=
    Nat.pow_le_pow_right (by decide) (by omega)
  rw [Nat.pow_mul] at hpow
  exact hlog.trans_le hpow

theorem two_mul_sign {k : Nat} (h : 1 ≤ k) : 2 * 2 ^ (8 * k - 1) = 256 ^ k := by
  have hpow : (256 : Nat) ^ k = 2 ^ (8 * k - 1 + 1) := by
    rw [show 8 * k - 1 + 1 = 8 * k by omega, Nat.pow_mul]
  rw [hpow, Nat.pow_succ, Nat.mul_comm]

theorem toNat_setTop {b : UInt8} (h : b.toNat < 128) : (b ||| 0x80).toNat = b.toNat + 128 := by
  have hall : ∀ n : Fin 256, (UInt8.ofFin n).toNat < 128 →
      (UInt8.ofFin n ||| 0x80).toNat = (UInt8.ofFin n).toNat + 128 := by
    decide +kernel
  exact hall b.toFin h

/-- The sign goes into the bit that is free. -/
theorem ofLeBytes_setSign {vch : Valtype} {n : Nat} (h : Magnitude vch n) (hne : vch ≠ []) :
    (setSign vch).length = vch.length ∧
      ofLeBytes (setSign vch) = n + 2 ^ (8 * vch.length - 1) := by
  obtain ⟨front, last, hconcat⟩ := (List.eq_nil_or_concat vch).resolve_left hne
  rw [List.concat_eq_append] at hconcat
  subst hconcat
  have hsign := @two_mul_sign (front ++ [last]).length (List.length_pos_of_ne_nil hne)
  have hvalue := h.value
  have hroom := h.room
  have hone : ∀ b : UInt8, ofLeBytes [b] = b.toNat := fun b => rfl
  rw [ofLeBytes_append, hone] at hvalue
  rw [List.length_append, List.length_singleton, Nat.pow_succ] at hroom hsign
  have hlast : last.toNat < 128 := by
    by_contra hle
    have hmul := Nat.mul_le_mul_left (256 ^ front.length) (Nat.not_lt.mp hle)
    omega
  unfold setSign
  rw [List.getLast?_concat, List.dropLast_concat]
  dsimp only
  rw [List.length_append, List.length_append, List.length_singleton, List.length_singleton,
    ofLeBytes_append, hone, toNat_setTop hlast, Nat.mul_add]
  exact ⟨rfl, by omega⟩

/-- A number survives. -/
theorem setvch_getvch (bn : Int) : setvch (getvch bn) = bn := by
  have hmagnitude := magnitude_getvch bn.natAbs
  unfold getvch
  dsimp only
  generalize CScript.numberBytes (Nat.log2 bn.natAbs / 8 + 1) bn.natAbs = vch at hmagnitude ⊢
  by_cases hnil : vch = []
  · subst hnil
    have hzero : bn.natAbs = 0 := hmagnitude.value.symm
    obtain rfl := Int.natAbs_eq_zero.mp hzero
    rfl
  have hsign := two_mul_sign (List.length_pos_of_ne_nil hnil)
  have hroom := hmagnitude.room
  unfold setvch
  dsimp only
  split
  · next hneg =>
    obtain ⟨hlength, hvalue⟩ := ofLeBytes_setSign hmagnitude hnil
    have hne : setSign vch ≠ [] := by
      rw [← List.length_pos_iff, hlength]
      exact List.length_pos_of_ne_nil hnil
    rw [hlength, hvalue, if_pos ⟨hne, Nat.le_add_left _ _⟩]
    omega
  · next hpos =>
    rw [hmagnitude.value, if_neg (by omega)]
    omega

/-- No shorter value stands for the number. -/
theorem length_getvch_le (bn : Int) {vch : Valtype} (h : setvch vch = bn) :
    (getvch bn).length ≤ vch.length := by
  have hmagnitude := magnitude_getvch bn.natAbs
  have hlength : (getvch bn).length =
      (CScript.numberBytes (Nat.log2 bn.natAbs / 8 + 1) bn.natAbs).length := by
    unfold getvch
    dsimp only
    split
    · exact length_setSign_eq _
    · rfl
  rw [hlength]
  generalize CScript.numberBytes (Nat.log2 bn.natAbs / 8 + 1) bn.natAbs = bytes at hmagnitude ⊢
  rcases Nat.eq_zero_or_pos bn.natAbs with hzero | hpos
  · rw [hmagnitude.nil hzero]
    exact Nat.zero_le _
  have hne : vch ≠ [] := by
    rintro rfl
    rw [← h] at hpos
    exact absurd hpos (by decide)
  have hsign := two_mul_sign (List.length_pos_of_ne_nil hne)
  have hlt := ofLeBytes_lt vch
  have hbound : 2 * bn.natAbs < 256 ^ vch.length := by
    unfold setvch at h
    dsimp only at h
    split at h
    · next hneg => omega
    · next hnot =>
      have hless : ofLeBytes vch < 2 ^ (8 * vch.length - 1) :=
        Nat.not_le.mp fun hle => hnot ⟨hne, hle⟩
      omega
  have hpow := (hmagnitude.needed hpos).trans_lt hbound
  have hlength := (Nat.pow_lt_pow_iff_right (by decide)).mp hpow
  omega

/-! ## Items -/

/-- What `operator<<` appends. -/
inductive ScriptItem where
  | opcode (code : Nat) (h : op16 < code ∧ code ≤ 0xff)
  | data (vch : Valtype) (h : vch.length < 2 ^ 32)
  | number (n : Int) (h : -2 ^ 63 ≤ n ∧ n < 2 ^ 63)

/-- The numbers with an instruction of their own. -/
def HasOpcode (n : Int) : Prop := n = -1 ∨ 1 ≤ n ∧ n ≤ 16

instance (n : Int) : Decidable (HasOpcode n) := inferInstanceAs (Decidable (_ ∨ _))

/-- `push_int64`. -/
def pushInt64 (n : Int) : CScript :=
  if HasOpcode n then [UInt8.ofNat (n + ((op1 - 1 : Nat) : Int)).toNat] else pushOf (getvch n)

namespace ScriptItem

def bytes : ScriptItem → CScript
  | opcode code _ => [UInt8.ofNat code]
  | data vch _ => pushOf vch
  | number n _ => pushInt64 n

/-- What `GetOp` returns for an item. -/
def op : ScriptItem → Nat × Valtype
  | opcode code _ => (code, [])
  | data vch _ => (pushCode vch, vch)
  | number n _ =>
    if HasOpcode n then ((n + ((op1 - 1 : Nat) : Int)).toNat, []) else (pushCode (getvch n), getvch n)

/-- What a push leaves on the stack. -/
def value : ScriptItem → Option Valtype
  | opcode _ _ => none
  | data vch _ => some vch
  | number n _ => some (getvch n)

end ScriptItem

/-- The items, appended to an empty script. -/
def build (items : List ScriptItem) : CScript :=
  items.foldl (fun script item => script ++ item.bytes) []

theorem build_eq (items : List ScriptItem) : build items = items.flatMap ScriptItem.bytes := by
  have hfold : ∀ script, items.foldl (fun script item => script ++ item.bytes) script =
      script ++ items.flatMap ScriptItem.bytes := by
    induction items with
    | nil => exact fun script => (List.append_nil script).symm
    | cons item items ih =>
      intro script
      rw [List.foldl_cons, ih, List.flatMap_cons, List.append_assoc]
  exact hfold []

/-! ## Reading the items -/

theorem toNat_opcode {n : Int} (h : HasOpcode n) :
    (UInt8.ofNat (n + ((op1 - 1 : Nat) : Int)).toNat).toNat =
        (n + ((op1 - 1 : Nat) : Int)).toNat ∧
      0x4f ≤ (n + ((op1 - 1 : Nat) : Int)).toNat ∧
      (n + ((op1 - 1 : Nat) : Int)).toNat ≤ op16 := by
  have hrange : 0x4f ≤ (n + ((op1 - 1 : Nat) : Int)).toNat ∧
      (n + ((op1 - 1 : Nat) : Int)).toNat ≤ op16 := by
    unfold HasOpcode at h
    unfold op1 op16
    omega
  refine ⟨?_, hrange⟩
  rw [UInt8.toNat_ofNat']
  refine Nat.mod_eq_of_lt (hrange.2.trans_lt (by decide))

/-- An instruction without an operand. -/
theorem getOp_single {b : UInt8} (rest : CScript) (h : opPushdata4 < b.toNat) :
    CScript.getOp (b :: rest) = some (b.toNat, [], rest) := by
  unfold opPushdata4 at h
  rw [CScript.getOp]
  dsimp only
  rw [if_neg (by unfold opPushdata1; omega), if_neg (by unfold opPushdata1; omega),
    if_neg (by unfold opPushdata2; omega), if_neg (by unfold opPushdata4; omega)]

/-- The bytes of a number in the range of `int64_t` are a short push. -/
theorem length_getvch_int64 {n : Int} (h : -2 ^ 63 ≤ n ∧ n < 2 ^ 63) :
    (getvch n).length ≤ maxScriptElementSize :=
  length_getvch (by omega)

theorem ScriptItem.getOp (item : ScriptItem) (rest : CScript) :
    CScript.getOp (item.bytes ++ rest) = some (item.op.1, item.op.2, rest) := by
  cases item with
  | opcode code h =>
    have hbyte : (UInt8.ofNat code).toNat = code := by
      rw [UInt8.toNat_ofNat']
      exact Nat.mod_eq_of_lt (Nat.lt_succ_of_le h.2)
    have hread := @getOp_single (UInt8.ofNat code) rest (by
      rw [hbyte]
      exact lt_trans (by decide) h.1)
    rw [hbyte] at hread
    exact hread
  | data vch h => exact getOp_pushOf_append h rest
  | number n h =>
    unfold ScriptItem.bytes ScriptItem.op pushInt64
    dsimp only
    split
    · next hopcode =>
      obtain ⟨hbyte, hlow, -⟩ := toNat_opcode hopcode
      have hread := @getOp_single (UInt8.ofNat (n + ((op1 - 1 : Nat) : Int)).toNat) rest (by
        rw [hbyte]
        exact lt_of_lt_of_le (by decide) hlow)
      rw [hbyte] at hread
      exact hread
    · exact getOp_pushOf_append ((length_getvch_int64 h).trans_lt (by decide)) rest

/-- `GetOp` reads the items and ends where the script ends. -/
theorem parsed_build (items : List ScriptItem) :
    Parsed (build items) (items.map ScriptItem.op) := by
  rw [build_eq]
  induction items with
  | nil => exact .nil
  | cons item items ih =>
    rw [List.flatMap_cons, List.map_cons]
    exact .cons (item.getOp _) ih

/-! ## Canonical pushes -/

/-- What `HasCanonicalPushes` asks of an instruction. -/
def isCanonicalPush (opcode : Nat) (data : Valtype) : Bool :=
  if op16 < opcode then true
  else if opcode < opPushdata1 && 0 < opcode && data.length = 1 && data.getD 0 0 ≤ 16 then false
  else if opcode = opPushdata1 ∧ data.length < opPushdata1 then false
  else if opcode = opPushdata2 ∧ data.length ≤ 0xff then false
  else if opcode = opPushdata4 ∧ data.length ≤ 0xffff then false
  else true

def hasCanonicalPushesLoop : (fuel : Nat) → CScript → Bool
  | 0, _ => true
  | _ + 1, [] => true
  | fuel + 1, pc =>
    match CScript.getOp pc with
    | none => false
    | some (opcode, data, rest) => isCanonicalPush opcode data && hasCanonicalPushesLoop fuel rest

/-- `HasCanonicalPushes`; every instruction takes at least a byte. -/
def hasCanonicalPushes (script : CScript) : Bool := hasCanonicalPushesLoop script.length script

theorem hasCanonicalPushesLoop_of_parsed {pc : CScript} {ops : List (Nat × Valtype)}
    (h : Parsed pc ops) (hops : ∀ op ∈ ops, isCanonicalPush op.1 op.2 = true) {fuel : Nat}
    (hfuel : pc.length ≤ fuel) : hasCanonicalPushesLoop fuel pc = true := by
  induction h generalizing fuel with
  | nil => cases fuel with
    | zero => rfl
    | succ fuel => rfl
  | @cons pc rest opcode vch ops hop _ ih =>
    obtain ⟨hfirst, hrest⟩ := List.forall_mem_cons.mp hops
    have hlt := CScript.length_getOp hop
    cases fuel with
    | zero => rfl
    | succ fuel =>
      cases pc with
      | nil => exact absurd hlt (Nat.not_lt_zero _)
      | cons b pc =>
        rw [hasCanonicalPushesLoop, hop]
        · dsimp only at hfirst ⊢
          rw [hfirst, Bool.true_and]
          exact ih hrest (Nat.le_of_lt_succ (hlt.trans_le hfuel))
        · exact List.cons_ne_nil b pc

/-- No instruction of its own pushes the value. -/
def NotSmall (vch : Valtype) : Prop := vch.length ≠ 1 ∨ 16 < vch.getD 0 0

theorem isCanonicalPush_pushCode {vch : Valtype} (h : NotSmall vch) :
    isCanonicalPush (pushCode vch) vch = true := by
  have hle := pushCode_le vch
  unfold isCanonicalPush
  rw [if_neg (by unfold op16 opPushdata4 at *; omega)]
  have hshort : ¬ (decide (pushCode vch < opPushdata1) && decide (0 < pushCode vch) &&
      decide (vch.length = 1) && decide (vch.getD 0 0 ≤ 16)) = true := by
    rw [Bool.and_eq_true, Bool.and_eq_true, decide_eq_true_eq, decide_eq_true_eq]
    rintro ⟨⟨-, hone⟩, hsmall⟩
    rcases h with hne | hlarge
    · exact hne hone
    · exact absurd hsmall (UInt8.not_le.mpr hlarge)
  rw [if_neg hshort]
  unfold pushCode opPushdata1 opPushdata2 opPushdata4
  split
  · next hlt => rw [if_neg (by omega), if_neg (by omega), if_neg (by omega)]
  split
  · rw [if_neg (by omega), if_neg (by omega), if_neg (by omega)]
  split
  · rw [if_neg (by omega), if_neg (by omega), if_neg (by omega)]
  · rw [if_neg (by omega), if_neg (by omega), if_neg (by omega)]

/-- A number without an instruction of its own is no small push. -/
theorem notSmall_getvch {n : Int} (h : ¬ HasOpcode n) : NotSmall (getvch n) := by
  by_contra hsmall
  unfold NotSmall at hsmall
  rw [not_or, not_not, UInt8.not_lt] at hsmall
  obtain ⟨b, hb⟩ := List.length_eq_one_iff.mp hsmall.1
  have hle : b ≤ 16 := by
    have hfirst := hsmall.2
    rw [hb] at hfirst
    exact hfirst
  have hle' : b.toNat ≤ 16 := UInt8.le_iff_toNat_le.mp hle
  have hvalue := setvch_getvch n
  rw [hb] at hvalue
  unfold setvch at hvalue
  have hone : ofLeBytes [b] = b.toNat := rfl
  dsimp only at hvalue
  rw [hone, List.length_singleton, if_neg (by rintro ⟨-, hsign⟩; omega)] at hvalue
  refine h (.inr ?_)
  have hne : n ≠ 0 := by
    rintro rfl
    have hlength := congrArg List.length hb
    rw [show (getvch 0).length = 0 by decide +kernel] at hlength
    cases hlength
  omega

theorem hasCanonicalPushes_build {items : List ScriptItem}
    (h : ∀ vch hvch, .data vch hvch ∈ items → NotSmall vch) :
    hasCanonicalPushes (build items) = true := by
  refine hasCanonicalPushesLoop_of_parsed (parsed_build items) (fun op hop => ?_) (le_refl _)
  obtain ⟨item, hitem, rfl⟩ := List.mem_map.mp hop
  cases item with
  | opcode code hcode =>
    unfold isCanonicalPush ScriptItem.op
    rw [if_pos hcode.1]
  | data vch hvch => exact isCanonicalPush_pushCode (h vch hvch hitem)
  | number n hn =>
    unfold ScriptItem.op
    dsimp only
    split
    · next hopcode =>
      obtain ⟨-, hlow, hhigh⟩ := toNat_opcode hopcode
      generalize (n + ((op1 - 1 : Nat) : Int)).toNat = code at hlow hhigh
      unfold isCanonicalPush opPushdata1 opPushdata2 opPushdata4
      rw [if_neg (Nat.not_lt.mpr hhigh)]
      rw [if_neg (by rw [decide_eq_false (by omega)]; simp), if_neg (by omega), if_neg (by omega),
        if_neg (by omega)]
    · next hopcode => exact isCanonicalPush_pushCode (notSmall_getvch hopcode)

/-! ## Evaluating the items -/

section eval

variable {env : EvalEnv} {s : EvalState} {rest : CScript}

/-- `OP_1NEGATE`, and `OP_1` to `OP_16`. -/
theorem step_pushInt {n : Int}
    (hop : CScript.getOp s.pc = some ((n + ((op1 - 1 : Nat) : Int)).toNat, [], rest))
    (h : HasOpcode n) (hexec : s.vfExec = []) :
    (step env s).2 = sizeLimit { s with stack := getvch n :: s.stack, pc := rest } := by
  rcases h with rfl | ⟨hlow, hhigh⟩
  · have hall : (EvalState.fExec { s with pc := rest }) = true := by
      rw [EvalState.fExec, hexec]
      rfl
    have hcode : ((-1 : Int) + ((op1 - 1 : Nat) : Int)).toNat = 0x4f := by decide
    have hpush : ¬ op16 < 0x4f := by decide
    have hlen : ¬ maxScriptElementSize < ([] : Valtype).length := Nat.not_lt_zero _
    rw [hcode] at hop
    unfold Interpreter.step
    rw [hop]
    dsimp only
    rw [if_neg hpush, if_neg hlen, if_neg (fun hand => hpush hand.1), if_neg (by decide), execOpcode,
      hall]
    rfl
  · obtain ⟨k, rfl⟩ := Int.eq_ofNat_of_zero_le (by omega : 0 ≤ n)
    refine step_pushNumber_eq ?_ (by omega) (by omega) hexec
    rw [hop]
    congr 2
    unfold op1
    omega

/-- An item that pushes a value pushes it, in every state in which instructions are executed. -/
theorem ScriptItem.step_eq {item : ScriptItem} {vch : Valtype} (hvalue : item.value = some vch)
    (hlen : vch.length ≤ maxScriptElementSize) (hpc : s.pc = item.bytes ++ rest)
    (hexec : s.vfExec = []) :
    (step env s).2 = sizeLimit { s with stack := vch :: s.stack, pc := rest } := by
  have hop := item.getOp rest
  rw [← hpc] at hop
  cases item with
  | opcode code h => cases hvalue
  | data vch' h =>
    cases hvalue
    exact step_pushValue_eq hop (pushCode_le _) hlen hexec
  | number n h =>
    cases hvalue
    unfold ScriptItem.op at hop
    dsimp only at hop
    split at hop
    · next hopcode => exact step_pushInt hop hopcode hexec
    · exact step_pushValue_eq hop (pushCode_le _) hlen hexec

theorem runs_items {r : Except Fault EvalState} {items : List ScriptItem}
    (hpush : ∀ item ∈ items, item.value ≠ none)
    (hlen : ∀ vch ∈ items.filterMap ScriptItem.value, vch.length ≤ maxScriptElementSize)
    (hpc : s.pc = items.flatMap ScriptItem.bytes) (hexec : s.vfExec = [])
    (hstack : s.stack.length + s.altstack.length + items.length ≤ maxStackSize)
    (hrun : Runs env { s with
      stack := (items.filterMap ScriptItem.value).reverse ++ s.stack, pc := [] } r) :
    Runs env s r := by
  induction items generalizing s with
  | nil =>
    rw [List.flatMap_nil] at hpc
    obtain ⟨stack, altstack, vfExec, nOpCount, pc, codehash⟩ := s
    obtain rfl : pc = [] := hpc
    exact hrun
  | cons item items ih =>
    obtain ⟨hfirst, hpush'⟩ := List.forall_mem_cons.mp hpush
    obtain ⟨vch, hvalue⟩ := Option.ne_none_iff_exists'.mp hfirst
    rw [List.filterMap_cons_some hvalue] at hlen hrun
    obtain ⟨hvch, hlen'⟩ := List.forall_mem_cons.mp hlen
    rw [List.flatMap_cons] at hpc
    rw [List.length_cons] at hstack
    have hlt := CScript.length_getOp (hpc ▸ item.getOp (items.flatMap ScriptItem.bytes))
    have hroom : ¬ (vch :: s.stack).length + s.altstack.length > maxStackSize := by
      rw [List.length_cons]
      omega
    have hstep := @ScriptItem.step_eq env s _ item vch hvalue hvch hpc hexec
    rw [sizeLimit, if_neg hroom] at hstep
    refine Runs.step (hpc ▸ hlt) hstep (ih hpush' hlen' rfl hexec ?_ ?_)
    · show (vch :: s.stack).length + s.altstack.length + items.length ≤ maxStackSize
      rw [List.length_cons]
      omega
    · rw [List.reverse_cons, List.append_assoc] at hrun
      exact hrun

/-- A script of pushes leaves what it pushes. -/
theorem evalScript_build (env : EvalEnv) {items : List ScriptItem}
    (hpush : ∀ item ∈ items, item.value ≠ none)
    (hlen : ∀ vch ∈ items.filterMap ScriptItem.value, vch.length ≤ maxScriptElementSize)
    (hcount : items.length ≤ maxStackSize) (hsize : (build items).length ≤ maxScriptSize) :
    (evalScript env [] (build items)).2 = .ok (items.filterMap ScriptItem.value).reverse := by
  have hruns : Runs env (start [] (build items)) (.ok { start [] (build items) with
      stack := (items.filterMap ScriptItem.value).reverse, pc := [] }) := by
    refine runs_items hpush hlen (build_eq items) rfl ?_ ?_
    · simpa [start] using hcount
    · simp only [start, List.append_nil]
      exact Runs.done rfl
  rw [evalScript_of_runs hsize hruns]
  rfl

end eval

/-- Items are read back as they were appended, they have canonical pushes and leave what they push
within the limits of the interpreter; and `GetOp` stays within every script. -/
theorem build_parsed (items : List ScriptItem) :
    Parsed (build items) (items.map ScriptItem.op) ∧
    (∀ env, (∀ item ∈ items, item.value ≠ none) →
      (∀ vch ∈ items.filterMap ScriptItem.value, vch.length ≤ maxScriptElementSize) →
      items.length ≤ maxStackSize → (build items).length ≤ maxScriptSize →
      (evalScript env [] (build items)).2 =
        .ok (items.filterMap ScriptItem.value).reverse) ∧
    (∀ env s item vch rest, ScriptItem.value item = some vch →
      vch.length ≤ maxScriptElementSize → s.pc = item.bytes ++ rest → s.vfExec = [] →
      s.stack.length + s.altstack.length < maxStackSize →
      (step env s).2 = .ok { s with stack := vch :: s.stack, pc := rest }) ∧
    (∀ bn, setvch (getvch bn) = bn ∧ ∀ vch, setvch vch = bn → (getvch bn).length ≤ vch.length) ∧
    ((∀ vch hvch, .data vch hvch ∈ items → NotSmall vch) →
      hasCanonicalPushes (build items) = true) ∧
    ∀ pc opcode vch rest, CScript.getOp pc = some (opcode, vch, rest) →
      rest.length < pc.length ∧ rest <:+ pc := by
  refine ⟨parsed_build items, fun env => evalScript_build env, ?_, fun bn => ?_,
    hasCanonicalPushes_build, fun pc opcode vch rest hop => ?_⟩
  · intro env s item vch rest hvalue hlen hpc hexec hstack
    have hroom : ¬ (vch :: s.stack).length + s.altstack.length > maxStackSize := by
      rw [List.length_cons]
      omega
    rw [ScriptItem.step_eq hvalue hlen hpc hexec, sizeLimit, if_neg hroom]
  · exact ⟨setvch_getvch bn, fun vch => length_getvch_le bn⟩
  · exact ⟨CScript.length_getOp hop, CScript.getOp_suffix hop⟩

/-- A value that is too long for the stack. -/
theorem evalScript_build_long :
    (evalScript sampleEnv [] (build [.data (List.replicate 521 0) (by decide +kernel)])).2 =
      .error .returnFalse := by
  decide +kernel

end Interpreter

end NoLimitCoin
