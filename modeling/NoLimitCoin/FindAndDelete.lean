import NoLimitCoin.Lib.DeletePass
import NoLimitCoin.SignatureHash

/-!
# Deleting from a script

`FindAndDelete` of `script.h` compares bytes wherever an instruction starts, and erases them in
place.  Seen as a list of instructions, the script loses whole instructions only.

Results:
1. `prefixFree_bytes`, `operations_eq_iff`: a script has one list of instructions.
2. `eraseLoop_spec`, `deleteLoop_spec`: the two loops, on instructions.
3. `findAndDelete_operations`: what is left, and how much was deleted.
4. `findAndDelete_interpreter`: this is what the interpreter deletes with.
-/

namespace NoLimitCoin

namespace CScript

/-! ## The code -/

/-- Where `FindAndDelete` stands: what lies before `pc`, what follows, and `nFound`. -/
structure DeleteState where
  front : CScript
  pc : CScript
  nFound : Nat

/-- The inner loop: while `b` stands at `pc`, `erase(pc, pc + b.size())`. -/
def eraseLoop (b : CScript) : (fuel : Nat) → DeleteState → Option DeleteState
  | 0, _ => none
  | fuel + 1, s =>
    if b.length ≤ s.pc.length ∧ s.pc.take b.length = b then
      eraseLoop b fuel { s with pc := s.pc.drop b.length, nFound := s.nFound + 1 }
    else some s

/-- The outer loop, with `GetOp` as its condition. -/
def deleteLoop (b : CScript) : (fuel : Nat) → DeleteState → Option DeleteState
  | 0, _ => none
  | fuel + 1, s =>
    (eraseLoop b (fuel + 1) s).bind fun s =>
      match s.pc.getOp with
      | none => some s
      | some (_, _, rest) =>
        deleteLoop b fuel
          { s with front := s.front ++ s.pc.take (s.pc.length - rest.length), pc := rest }

/-- `FindAndDelete`: the number of copies it found, and the script it leaves.  Nothing is returned
where the fuel does not suffice. -/
def findAndDelete (fuel : Nat) (script b : CScript) : Option (Nat × CScript) :=
  if b = [] then some (0, script)
  else (deleteLoop b fuel ⟨[], script, 0⟩).map fun s => (s.nFound, s.front ++ s.pc)

/-! ## Instructions -/

/-- An instruction with all its bytes. -/
structure Operation where
  opcode : Nat
  bytes : CScript
  complete : ∃ vch, bytes.getOp = some (opcode, vch, [])
deriving DecidableEq

/-- What `GetOp` went over is an instruction. -/
theorem complete_take {script vch rest : CScript} {opcode : Nat}
    (h : script.getOp = some (opcode, vch, rest)) :
    ∃ vch, getOp (script.take (script.length - rest.length)) = some (opcode, vch, []) := by
  obtain ⟨front, rfl⟩ := getOp_suffix h
  rw [List.length_append, Nat.add_sub_cancel, List.take_left]
  exact ⟨vch, getOp_append.mp h⟩

/-- The instructions up to the end or to a malformed one, and what is left from there. -/
def operations (script : CScript) : List Operation × CScript :=
  match h : script.getOp with
  | none => ([], script)
  | some (opcode, _, rest) =>
    let later := operations rest
    (⟨opcode, script.take (script.length - rest.length), complete_take h⟩ :: later.1, later.2)
termination_by script.length
decreasing_by exact length_getOp h

namespace Operation

theorem getOp_bytes (op : Operation) (rest : CScript) :
    ∃ vch, (op.bytes ++ rest).getOp = some (op.opcode, vch, rest) := by
  obtain ⟨vch, h⟩ := op.complete
  exact ⟨vch, getOp_append.mpr h⟩

theorem prefixFree_bytes : PrefixFree (fun _ : Operation => True) bytes := by
  intro x y _ _ r s h
  obtain ⟨v, hx⟩ := x.getOp_bytes r
  obtain ⟨w, hy⟩ := y.getOp_bytes s
  rw [h, hy] at hx
  obtain ⟨hcode, -, rfl⟩ : y.opcode = x.opcode ∧ w = v ∧ s = r := by simpa using hx
  obtain ⟨opcode, bytes, hcomplete⟩ := x
  obtain rfl : opcode = y.opcode := hcode.symm
  obtain rfl : bytes = y.bytes := List.append_cancel_right h
  exact ⟨rfl, rfl⟩

/-- No instruction starts where `GetOp` fails. -/
theorem not_isPrefix {tail : CScript} (htail : tail.getOp = none) (op : Operation) :
    ¬ op.bytes <+: tail := by
  rintro ⟨rest, rfl⟩
  obtain ⟨vch, h⟩ := op.getOp_bytes rest
  rw [htail] at h
  cases h

theorem flatMap_isPrefix {bops ops : List Operation} {tail : CScript} (htail : tail.getOp = none) :
    bops.flatMap bytes <+: ops.flatMap bytes ++ tail ↔ bops <+: ops :=
  prefixFree_bytes.flatMap_isPrefix (fun _ _ => trivial) (fun _ _ => trivial)
    fun op _ => not_isPrefix htail op

end Operation

theorem operations_spec (script : CScript) :
    script = (operations script).1.flatMap Operation.bytes ++ (operations script).2 ∧
      (operations script).2.getOp = none := by
  induction hlen : script.length using Nat.strongRecOn generalizing script with
  | ind k ih =>
    unfold operations
    split
    · next h => exact ⟨rfl, h⟩
    · next opcode vch rest h =>
      have hlt := length_getOp h
      obtain ⟨hrest, htail⟩ := ih rest.length (hlen ▸ hlt) rest rfl
      refine ⟨?_, htail⟩
      rw [List.flatMap_cons, List.append_assoc, ← hrest]
      obtain ⟨front, rfl⟩ := getOp_suffix h
      show front ++ rest = (front ++ rest).take ((front ++ rest).length - rest.length) ++ rest
      rw [List.length_append, Nat.add_sub_cancel, List.take_left]

/-- A script is its instructions and a tail that is none. -/
theorem operations_eq_iff {script tail : CScript} {ops : List Operation} :
    operations script = (ops, tail) ↔
      script = ops.flatMap Operation.bytes ++ tail ∧ tail.getOp = none := by
  obtain ⟨hscript, hnone⟩ := operations_spec script
  constructor
  · intro h
    rw [h] at hscript hnone
    exact ⟨hscript, hnone⟩
  · rintro ⟨heq, htail⟩
    generalize operations script = read at hscript hnone ⊢
    obtain ⟨ops', tail'⟩ := read
    -- either list starts with the other one
    have hle : ops' <+: ops := by
      rw [← Operation.flatMap_isPrefix htail, ← heq, hscript]
      exact List.prefix_append _ _
    have hge : ops <+: ops' := by
      rw [← Operation.flatMap_isPrefix hnone, ← hscript, heq]
      exact List.prefix_append _ _
    obtain rfl := hle.eq_of_length_le hge.length_le
    exact Prod.ext rfl (List.append_cancel_left (hscript.symm.trans heq))

/-! ## The loops on instructions -/

section loops

variable {b : CScript} {bops : List Operation} {tail : CScript}

/-- The inner loop goes over some copies, up to instructions that do not start with one. -/
theorem eraseLoop_spec (hb : b = bops.flatMap Operation.bytes) (hne : bops ≠ [])
    (htail : tail.getOp = none) {fuel : Nat} {ops : List Operation} {s : DeleteState}
    (hpc : s.pc = ops.flatMap Operation.bytes ++ tail) (hfuel : ops.length < fuel) :
    ∃ k rest, rest.length ≤ ops.length ∧ ¬ bops <+: rest ∧
      eraseLoop b fuel s = some
        { s with pc := rest.flatMap Operation.bytes ++ tail, nFound := s.nFound + k } ∧
      ∀ n left, DeletePass bops rest n left → DeletePass bops ops (n + k) left := by
  induction fuel generalizing ops s with
  | zero => exact absurd hfuel (Nat.not_lt_zero _)
  | succ fuel ih =>
    have hcopy : (b.length ≤ s.pc.length ∧ s.pc.take b.length = b) ↔ bops <+: ops := by
      rw [← Operation.flatMap_isPrefix htail, ← hb, ← hpc, List.prefix_iff_eq_take]
      constructor
      · exact fun h => h.2.symm
      · intro h
        have hlen := congrArg List.length h
        rw [List.length_take] at hlen
        exact ⟨by omega, h.symm⟩
    unfold eraseLoop
    by_cases h : bops <+: ops
    · obtain ⟨ops, rfl⟩ := h
      rw [if_pos (hcopy.mpr (List.prefix_append _ _))]
      have hpos : 0 < bops.length := List.length_pos_iff.mpr hne
      rw [List.length_append] at hfuel
      have hdrop : s.pc.drop b.length = ops.flatMap Operation.bytes ++ tail := by
        rw [hpc, List.flatMap_append, ← hb, List.append_assoc, List.drop_left]
      obtain ⟨k, rest, hle, hstop, herase, hpass⟩ :=
        @ih ops { s with pc := s.pc.drop b.length, nFound := s.nFound + 1 } hdrop (by omega)
      refine ⟨k + 1, rest, ?_, hstop, ?_, fun n left h => ?_⟩
      · rw [List.length_append]
        omega
      · rw [herase, Nat.add_assoc, Nat.add_comm 1 k]
      · exact .drop (hpass n left h)
    · rw [if_neg (hcopy.not.mpr h)]
      exact ⟨0, ops, le_refl _, h, by rw [← hpc]; rfl, fun n left h => h⟩

/-- The outer loop makes one pass over the instructions. -/
theorem deleteLoop_spec (hb : b = bops.flatMap Operation.bytes) (hne : bops ≠ [])
    (htail : tail.getOp = none) {fuel : Nat} {ops : List Operation} {s : DeleteState}
    (hpc : s.pc = ops.flatMap Operation.bytes ++ tail) (hfuel : ops.length < fuel) :
    ∃ n left, DeletePass bops ops n left ∧ deleteLoop b fuel s = some
      ⟨s.front ++ left.flatMap Operation.bytes, tail, s.nFound + n⟩ := by
  induction fuel generalizing ops s with
  | zero => exact absurd hfuel (Nat.not_lt_zero _)
  | succ fuel ih =>
    obtain ⟨k, rest, hle, hstop, herase, hpass⟩ := eraseLoop_spec hb hne htail hpc hfuel
    unfold deleteLoop
    rw [herase, Option.bind_some]
    cases rest with
    | nil =>
      refine ⟨k, [], ?_, ?_⟩
      · simpa using hpass 0 [] .nil
      · simp [htail]
    | cons op rest =>
      rw [List.length_cons] at hle
      obtain ⟨vch, hop⟩ := op.getOp_bytes (rest.flatMap Operation.bytes ++ tail)
      rw [List.flatMap_cons, List.append_assoc]
      dsimp only
      rw [hop]
      dsimp only
      rw [List.length_append, Nat.add_sub_cancel, List.take_left]
      obtain ⟨n, left, hleft, hloop⟩ := @ih rest ⟨s.front ++ op.bytes,
        rest.flatMap Operation.bytes ++ tail, s.nFound + k⟩ rfl (by omega)
      refine ⟨n + k, op :: left, hpass n _ (.keep hstop hleft), ?_⟩
      rw [hloop, List.flatMap_cons, List.append_assoc, Nat.add_assoc, Nat.add_comm k n]

end loops

/-- Copies of complete instructions are deleted from a script instruction by instruction, in one
pass from left to right, and a malformed tail stays. -/
theorem findAndDelete_operations (script b : CScript) (hne : b ≠ [])
    (hb : (operations b).2 = []) :
    ∃ n script', DeletePass (operations b).1 (operations script).1 n (operations script').1 ∧
      (operations script').2 = (operations script).2 ∧
      (∀ fuel, (operations script).1.length < fuel →
        findAndDelete fuel script b = some (n, script')) ∧
      ∀ op, (operations b).1 = [op] →
        (operations script').1 = (operations script).1.filter (· ≠ op) ∧
          n = (operations script).1.count op := by
  obtain ⟨hbytes, -⟩ := operations_spec b
  rw [hb, List.append_nil] at hbytes
  have hops : (operations b).1 ≠ [] := fun h => hne (by rw [hbytes, h]; rfl)
  obtain ⟨hscript, htail⟩ := operations_spec script
  have hloop : ∀ fuel, (operations script).1.length < fuel → ∃ n left,
      DeletePass (operations b).1 (operations script).1 n left ∧ findAndDelete fuel script b =
        some (n, left.flatMap Operation.bytes ++ (operations script).2) := by
    intro fuel hfuel
    obtain ⟨n, left, hpass, hloop⟩ := @deleteLoop_spec b _ _ hbytes hops htail fuel
      (operations script).1 ⟨[], script, 0⟩ hscript hfuel
    refine ⟨n, left, hpass, ?_⟩
    rw [findAndDelete, if_neg hne, hloop]
    simp
  obtain ⟨n, left, hpass, -⟩ := hloop _ (Nat.lt_succ_self _)
  have hread : operations (left.flatMap Operation.bytes ++ (operations script).2) =
      (left, (operations script).2) := operations_eq_iff.mpr ⟨rfl, htail⟩
  refine ⟨n, left.flatMap Operation.bytes ++ (operations script).2, ?_⟩
  rw [hread]
  refine ⟨hpass, rfl, fun fuel hfuel => ?_, fun op hop => (hop ▸ hpass).filter⟩
  obtain ⟨m, left', hpass', h⟩ := hloop fuel hfuel
  obtain ⟨rfl, rfl⟩ := hpass.unique hops hpass'
  exact h

/-- The separator is a whole instruction; the data of a push holds the same byte. -/
theorem findAndDelete_separator :
    ∃ n script', DeletePass (operations [0xab]).1 (operations [0x01, 0xab, 0xab, 0xab, 0x4c]).1 n
        (operations script').1 ∧
      (operations script').2 = (operations [0x01, 0xab, 0xab, 0xab, 0x4c]).2 ∧
      (∀ fuel, (operations [0x01, 0xab, 0xab, 0xab, 0x4c]).1.length < fuel →
        findAndDelete fuel [0x01, 0xab, 0xab, 0xab, 0x4c] [0xab] = some (n, script')) ∧
      ∀ op, (operations [0xab]).1 = [op] →
        (operations script').1 =
            (operations [0x01, 0xab, 0xab, 0xab, 0x4c]).1.filter (· ≠ op) ∧
          n = (operations [0x01, 0xab, 0xab, 0xab, 0x4c]).1.count op := by
  refine findAndDelete_operations _ _ (by decide) ?_
  have hop : getOp [0xab] = some (0xab, [], []) := by decide
  have h : operations [0xab] = ([⟨0xab, [0xab], [], hop⟩], []) :=
    operations_eq_iff.mpr ⟨rfl, rfl⟩
  rw [h]

/-! ## The interpreter -/

/-- The inner loop goes over the copies that the interpreter's loop skips. -/
theorem eraseLoop_eq {b : CScript} (hne : b ≠ []) {fuel k : Nat} {s s' : DeleteState}
    (h : eraseLoop b fuel s = some s') (hk : s.pc.length ≤ k) :
    s'.front = s.front ∧ s'.pc = Interpreter.eraseCopies b k s.pc := by
  have hpos : 0 < b.length := List.length_pos_iff.mpr hne
  induction fuel generalizing s k with
  | zero => cases h
  | succ fuel ih =>
    unfold eraseLoop at h
    split at h
    · next hcopy =>
      cases k with
      | zero => omega
      | succ k =>
        have hdrop : (s.pc.drop b.length).length ≤ k := by
          rw [List.length_drop]
          omega
        obtain ⟨hfront, hpc⟩ := ih h hdrop
        have hb : b.isPrefixOf s.pc = true :=
          List.isPrefixOf_iff_prefix.mpr (List.prefix_iff_eq_take.mpr hcopy.2.symm)
        rw [Interpreter.eraseCopies, if_pos hb]
        exact ⟨hfront, hpc⟩
    · next hcopy =>
      obtain rfl := Option.some.inj h
      refine ⟨rfl, ?_⟩
      cases k with
      | zero => rfl
      | succ k =>
        have hb : ¬ b.isPrefixOf s.pc = true := by
          intro hb
          have hstart := List.isPrefixOf_iff_prefix.mp hb
          exact hcopy ⟨hstart.length_le, (List.prefix_iff_eq_take.mp hstart).symm⟩
        rw [Interpreter.eraseCopies, if_neg hb]

theorem deleteLoop_eq {b : CScript} (hne : b ≠ []) {fuel k : Nat} {s s' : DeleteState}
    (h : deleteLoop b fuel s = some s') (hk : s.pc.length < k) :
    s'.front ++ s'.pc = s.front ++ Interpreter.findAndDeleteLoop b k s.pc := by
  induction fuel generalizing s k with
  | zero => cases h
  | succ fuel ih =>
    cases k with
    | zero => exact absurd hk (Nat.not_lt_zero _)
    | succ k =>
      unfold deleteLoop at h
      obtain ⟨s₁, herase, h⟩ := Option.bind_eq_some_iff.mp h
      obtain ⟨hfront, hpc⟩ := eraseLoop_eq hne herase (le_refl _)
      rw [Interpreter.findAndDeleteLoop, ← hpc, ← hfront]
      cases hop : s₁.pc.getOp with
      | none =>
        simp only [hop] at h
        obtain rfl := Option.some.inj h
        rfl
      | some op =>
        obtain ⟨opcode, vch, rest⟩ := op
        have hle : s₁.pc.length ≤ s.pc.length := hpc ▸ length_eraseCopies_le _ _ _
        have hlt : rest.length < k := by
          have hrest := length_getOp hop
          omega
        simp only [hop] at h
        rw [ih h hlt, List.append_assoc]

/-- The script that is left is the one the interpreter goes on with. -/
theorem findAndDelete_interpreter {fuel n : Nat} {script b script' : CScript}
    (h : findAndDelete fuel script b = some (n, script')) :
    script' = Interpreter.findAndDelete script b := by
  unfold findAndDelete at h
  unfold Interpreter.findAndDelete
  split at h
  · next hb =>
    cases h
    rw [if_pos hb]
  · next hb =>
    obtain ⟨s, hloop, heq⟩ := Option.map_eq_some_iff.mp h
    cases heq
    rw [if_neg hb]
    exact deleteLoop_eq hb hloop (Nat.lt_succ_self _)

end CScript

end NoLimitCoin
