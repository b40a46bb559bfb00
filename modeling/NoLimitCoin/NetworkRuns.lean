import NoLimitCoin.Network

/-!
# Runs of a connection

Results:

1. `Message.frame_eq`: the bytes of a message are its header and its payload.
2. `sendFrom_ok`: the socket is given the queue in order, whatever it answers.
3. `receiveMsgBytes_ok`: the peer gathers the messages, wherever the bytes are split.
4. `connection_faithful`: both together, over every run.
-/

namespace NoLimitCoin

namespace Network

open Buffer

/-! ## Frames -/

/-- The header that a message gets. -/
def Message.header (env : Env) (p : Message) : CMessageHeader :=
  ⟨Network.pchMessageStart env, CMessageHeader.commandBytes p.pszCommand, p.payload.length,
    env.hashOf p.payload % 2 ^ 32⟩

/-- The bytes of a message. -/
def Message.frame (env : Env) (p : Message) : List UInt8 := (p.header env).serialize ++ p.payload

@[simp] theorem length_pchMessageStart (env : Env) : (pchMessageStart env).length = 4 := by
  unfold pchMessageStart
  split <;> rfl

@[simp] theorem length_commandBytes (pszCommand : List UInt8) :
    (CMessageHeader.commandBytes pszCommand).length = 12 := by
  simp [CMessageHeader.commandBytes, CMessageHeader.commandSize]

section frame

variable (env : Env) (p : Message)

@[simp] theorem Message.length_header : (p.header env).serialize.length = 24 := by
  simp [header, CMessageHeader.serialize]

@[simp] theorem Message.length_frame : (p.frame env).length = 24 + p.payload.length := by
  rw [frame, List.length_append, length_header]

/-- What `EndMessage` makes of the message. -/
theorem Message.frame_eq (h : p.payload.length ≤ maxSize) :
    finishHeader env ((CMessageHeader.ofCommand env p.pszCommand 0).serialize ++ p.payload) =
      p.frame env := by
  have hstart : (Network.pchMessageStart env ++ CMessageHeader.commandBytes p.pszCommand).length =
      CMessageHeader.messageSizeOffset := by simp [CMessageHeader.messageSizeOffset]
  have hsize : (p.payload.length + 24 - CMessageHeader.headerSize) % 2 ^ 32 = p.payload.length := by
    rw [CMessageHeader.headerSize, Nat.add_sub_cancel, Nat.mod_eq_of_lt]
    exact Nat.lt_of_le_of_lt h (by decide)
  have hlength : ((CMessageHeader.ofCommand env p.pszCommand 0).serialize ++ p.payload).length =
      p.payload.length + 24 := by
    simp [CMessageHeader.ofCommand, CMessageHeader.serialize]
    omega
  -- the size is written between the command and the checksum
  have hfirst : overwrite ((CMessageHeader.ofCommand env p.pszCommand 0).serialize ++ p.payload)
      CMessageHeader.messageSizeOffset (leBytes 4 p.payload.length) =
      Network.pchMessageStart env ++ CMessageHeader.commandBytes p.pszCommand ++
        leBytes 4 p.payload.length ++ (leBytes 4 0 ++ p.payload) := by
    rw [← hstart, ← overwrite_append _ (leBytes 4 0) _ (by simp)]
    simp [CMessageHeader.ofCommand, CMessageHeader.serialize]
  have hpayload : (Network.pchMessageStart env ++ CMessageHeader.commandBytes p.pszCommand ++
      leBytes 4 p.payload.length ++ (leBytes 4 0 ++ p.payload)).drop CMessageHeader.headerSize =
      p.payload := by
    rw [← List.append_assoc, List.drop_left']
    simp [CMessageHeader.headerSize]
  unfold finishHeader
  rw [hlength, hsize]
  dsimp only
  rw [hfirst, hpayload, show CMessageHeader.checksumOffset = (Network.pchMessageStart env ++
    CMessageHeader.commandBytes p.pszCommand ++ leBytes 4 p.payload.length).length by
      simp [CMessageHeader.checksumOffset], ← List.append_assoc, overwrite_append _ _ _ (by simp)]
  rfl

/-- Reading the header of a message. -/
theorem Message.unserialize_header (h : p.payload.length ≤ maxSize) :
    CMessageHeader.unserialize (p.header env).serialize = some (p.header env) := by
  have hsize : p.payload.length % 256 ^ 4 = p.payload.length :=
    Nat.mod_eq_of_lt (Nat.lt_of_le_of_lt h (by decide))
  have hsum : env.hashOf p.payload % 2 ^ 32 % 256 ^ 4 = env.hashOf p.payload % 2 ^ 32 :=
    Nat.mod_eq_of_lt (Nat.mod_lt _ (by decide))
  have hstart := length_pchMessageStart env
  have hcommand := length_commandBytes p.pszCommand
  have htail : ((p.header env).serialize.drop CMessageHeader.messageSizeOffset).take 4 =
      leBytes 4 p.payload.length := by
    rw [header, CMessageHeader.serialize, List.append_assoc, List.drop_left', List.take_left'] <;>
      simp [CMessageHeader.messageSizeOffset]
  have hcheck : ((p.header env).serialize.drop CMessageHeader.checksumOffset).take 4 =
      leBytes 4 (env.hashOf p.payload % 2 ^ 32) := by
    rw [header, CMessageHeader.serialize, List.drop_left', List.take_of_length_le] <;>
      simp [CMessageHeader.checksumOffset]
  have hname : ((p.header env).serialize.drop CMessageHeader.messageStartSize).take
      CMessageHeader.commandSize = CMessageHeader.commandBytes p.pszCommand := by
    rw [header, CMessageHeader.serialize, List.append_assoc, List.append_assoc, List.drop_left',
      List.take_left'] <;> simp [CMessageHeader.messageStartSize, CMessageHeader.commandSize]
  have hmagic : (p.header env).serialize.take CMessageHeader.messageStartSize =
      Network.pchMessageStart env := by
    rw [header, CMessageHeader.serialize, List.append_assoc, List.append_assoc, List.take_left']
    simp [CMessageHeader.messageStartSize]
  rw [CMessageHeader.unserialize, if_neg (by simp [CMessageHeader.headerSize]), htail, hcheck, hname,
    hmagic, leNat_leBytes, leNat_leBytes, hsize, hsum]
  rfl

end frame

/-! ## The sender -/

/-- The invariant of the send queue. -/
structure Queued (node : CNode) : Prop where
  idle : node.ssSend = []
  size : node.nSendSize = (node.vSendMsg.map List.length).sum
  nonempty : ∀ data ∈ node.vSendMsg, 0 < data.length
  offset : ∀ data, node.vSendMsg.head? = some data → node.nSendOffset < data.length
  done : node.vSendMsg = [] → node.nSendOffset = 0

/-- The bytes that the socket has not taken yet. -/
def CNode.unsent (node : CNode) : List UInt8 := node.vSendMsg.flatten.drop node.nSendOffset

/-- The loop of `SocketSendData`: no assertion fails, and no byte is lost. -/
theorem sendFrom_ok (vSendMsg : List (List UInt8)) (node : CNode) (answers : List Answer)
    (h : Queued { node with vSendMsg := vSendMsg }) : ∃ node',
      sendFrom node vSendMsg answers = .ok node' ∧ Queued node' ∧
      node'.socket ++ node'.unsent = node.socket ++ vSendMsg.flatten.drop node.nSendOffset := by
  induction vSendMsg generalizing node answers with
  | nil =>
    have hoffset : node.nSendOffset = 0 := h.done rfl
    have hsize : node.nSendSize = 0 := h.size
    refine ⟨{ node with vSendMsg := [] }, ?_, h, ?_⟩
    · rw [sendFrom, hoffset, hsize]
      rfl
    · simp [CNode.unsent]
  | cons data rest ih =>
    have hoffset : node.nSendOffset < data.length := h.offset data rfl
    have hstop : ∃ node', (pure { node with vSendMsg := data :: rest } : Except String CNode) =
        .ok node' ∧ Queued node' ∧ node'.socket ++ node'.unsent =
          node.socket ++ (data :: rest).flatten.drop node.nSendOffset := ⟨_, rfl, h, rfl⟩
    rw [sendFrom, assert, if_pos (decide_eq_true hoffset)]
    cases answers.headD .again with
    | again => exact hstop
    | failed =>
      exact ⟨{ node with vSendMsg := data :: rest, fDisconnect := true }, rfl,
        ⟨h.idle, h.size, h.nonempty, h.offset, h.done⟩, rfl⟩
    | bytes nBytes =>
      show ∃ node', (if 0 < min nBytes (data.drop node.nSendOffset).length then _ else _) =
        Except.ok node' ∧ _
      generalize hcount : min nBytes (data.drop node.nSendOffset).length = n
      have hle : n ≤ data.length - node.nSendOffset := by
        rw [← hcount, List.length_drop]
        exact Nat.min_le_right _ _
      split
      · next hpos =>
        dsimp only
        have hgiven : (data.drop node.nSendOffset).take n ++ data.drop (node.nSendOffset + n) =
            data.drop node.nSendOffset := by
          rw [← List.drop_drop, List.take_append_drop]
        split
        · next hwhole =>
          -- the whole buffer has been taken, the next one follows
          obtain ⟨hdata, hrest⟩ := List.forall_mem_cons.mp h.nonempty
          have hsize : node.nSendSize = data.length + (rest.map List.length).sum := h.size
          obtain ⟨node', hrun, hqueued, hbytes⟩ := ih
            { node with
              nSendOffset := 0
              socket := node.socket ++ (data.drop node.nSendOffset).take n
              nSendSize := node.nSendSize - data.length } answers.tail
            ⟨h.idle, by rw [hsize]; exact Nat.add_sub_cancel_left _ _, hrest,
              fun next hnext => hrest next (List.mem_of_mem_head? hnext), fun _ => rfl⟩
          refine ⟨node', hrun, hqueued, hbytes.trans ?_⟩
          rw [hwhole, List.drop_length, List.append_nil] at hgiven
          rw [List.drop_zero, List.flatten_cons, List.drop_append_of_le_length (Nat.le_of_lt hoffset), hgiven,
            List.append_assoc]
        · next hpart =>
          have hlt : node.nSendOffset + n < data.length := by omega
          refine ⟨_, rfl, ⟨h.idle, h.size, h.nonempty, fun next hnext => ?_, fun hnil => ?_⟩, ?_⟩
          · obtain rfl := Option.some.inj hnext
            exact hlt
          · exact absurd hnil (List.cons_ne_nil _ _)
          · show node.socket ++ _ ++ ((data :: rest).flatten.drop (node.nSendOffset + n)) = _
            rw [List.flatten_cons, List.drop_append_of_le_length (Nat.le_of_lt hoffset), List.drop_append_of_le_length (Nat.le_of_lt hlt),
              List.append_assoc, ← List.append_assoc (List.take _ _), hgiven]
      · exact hstop

theorem socketSendData_ok {node : CNode} (answers : List Answer) (h : Queued node) : ∃ node',
    socketSendData node answers = .ok node' ∧ Queued node' ∧
      node'.socket ++ node'.unsent = node.socket ++ node.unsent :=
  sendFrom_ok node.vSendMsg node answers h

/-- `PushMessage`: the bytes of the message follow those that are still to be sent. -/
theorem pushMessage_ok {env : Env} {node : CNode} {p : Message} (dropped : Bool)
    (answers : List Answer) (hsize : p.payload.length ≤ maxSize) (h : Queued node) : ∃ node',
      pushMessage env node p.pszCommand p.payload dropped answers = .ok node' ∧ Queued node' ∧
      node'.socket ++ node'.unsent =
        node.socket ++ node.unsent ++ (if dropped then [] else p.frame env) := by
  have hbegin : beginMessage env node p.pszCommand =
      .ok { node with ssSend := (CMessageHeader.ofCommand env p.pszCommand 0).serialize } := by
    rw [beginMessage, h.idle]
    rfl
  have hpush : pushMessage env node p.pszCommand p.payload dropped answers = endMessage env
      { node with ssSend := (CMessageHeader.ofCommand env p.pszCommand 0).serialize ++ p.payload }
      dropped answers := by
    rw [pushMessage, hbegin]
    rfl
  rw [hpush, endMessage]
  cases dropped with
  | true =>
    refine ⟨_, rfl, ⟨rfl, h.size, h.nonempty, h.offset, h.done⟩, ?_⟩
    rw [if_pos rfl, List.append_nil]
    rfl
  | false =>
    have hnonempty : ((CMessageHeader.ofCommand env p.pszCommand 0).serialize ++
        p.payload).isEmpty = false := by
      rw [List.isEmpty_eq_false_iff]
      refine List.ne_nil_of_length_pos ?_
      simp [CMessageHeader.ofCommand, CMessageHeader.serialize]
    have hframe : 0 < (p.frame env).length := by rw [Message.length_frame]; omega
    rw [if_neg Bool.false_ne_true]
    dsimp only
    rw [hnonempty, if_neg Bool.false_ne_true, Message.frame_eq env p hsize, assert,
      if_pos (decide_eq_true (by simp [CMessageHeader.checksumOffset, Message.length_frame]))]
    have hqueued : Queued { node with
        ssSend := []
        vSendMsg := node.vSendMsg ++ [p.frame env]
        nSendSize := node.nSendSize + (p.frame env).length } := by
      refine ⟨rfl, ?_, ?_, fun data hdata => ?_, fun hnil => ?_⟩
      · simp [h.size]
      · exact List.forall_mem_append.mpr ⟨h.nonempty, fun data hdata =>
          List.mem_singleton.mp hdata ▸ hframe⟩
      · cases hqueue : node.vSendMsg with
        | nil =>
          rw [hqueue] at hdata
          obtain rfl := Option.some.inj hdata
          rw [h.done hqueue]
          exact hframe
        | cons first rest =>
          rw [hqueue] at hdata
          obtain rfl := Option.some.inj hdata
          exact h.offset first (by rw [hqueue]; rfl)
      · exact absurd hnil (by simp)
    have hunsent : (node.vSendMsg ++ [p.frame env]).flatten.drop node.nSendOffset =
        node.unsent ++ p.frame env := by
      rw [List.flatten_append, List.flatten_singleton, CNode.unsent, List.drop_append_of_le_length]
      cases hqueue : node.vSendMsg with
      | nil => rw [h.done hqueue]; exact Nat.zero_le _
      | cons first rest =>
        have := h.offset first (by rw [hqueue]; rfl)
        simp
        omega
    show ∃ node', (if node.vSendMsg.isEmpty then _ else _) = Except.ok node' ∧ _
    split
    · obtain ⟨node', hrun, hqueued', hbytes⟩ := socketSendData_ok answers hqueued
      refine ⟨node', hrun, hqueued', hbytes.trans ?_⟩
      rw [if_neg Bool.false_ne_true, List.append_assoc]
      exact congrArg (node.socket ++ ·) hunsent
    · refine ⟨_, rfl, hqueued, ?_⟩
      rw [if_neg Bool.false_ne_true, List.append_assoc]
      exact congrArg (node.socket ++ ·) hunsent

/-! ## The receiver -/

/-- `msg` holds the first `n` bytes of the message `p`. -/
inductive Holds (env : Env) (p : Message) : CNetMessage → Nat → Prop where
  | header {msg : CNetMessage} {n : Nat} (hn : n = msg.nHdrPos) (hlt : msg.nHdrPos < 24)
      (hphase : msg.in_data = false) (hlength : msg.hdrbuf.length = 24)
      (hbytes : msg.hdrbuf.take msg.nHdrPos = (p.header env).serialize.take msg.nHdrPos)
      (hvRecv : msg.vRecv = []) (hpos : msg.nDataPos = 0) : Holds env p msg n
  | data {msg : CNetMessage} {n : Nat} (hn : n = 24 + msg.nDataPos)
      (hle : msg.nDataPos ≤ p.payload.length) (hphase : msg.in_data = true)
      (hhdr : msg.hdr = p.header env) (hlength : msg.vRecv.length = p.payload.length)
      (hbytes : msg.vRecv.take msg.nDataPos = p.payload.take msg.nDataPos) : Holds env p msg n

/-- A complete message with the header and the payload of `p`. -/
structure Whole (env : Env) (msg : CNetMessage) (p : Message) : Prop where
  complete : msg.complete = true
  hdr : msg.hdr = p.header env
  vRecv : msg.vRecv = p.payload

section receiver

variable {env : Env} {p : Message} {msg : CNetMessage} {n : Nat}

theorem Holds.empty (env : Env) (p : Message) : Holds env p (.empty env) 0 :=
  .header rfl (show 0 < 24 by decide) rfl (by simp [CNetMessage.empty, CMessageHeader.headerSize]) rfl rfl rfl

theorem Holds.complete (h : Holds env p msg n) :
    msg.complete = decide (n = (p.frame env).length) := by
  rw [Message.length_frame]
  cases h with
  | header hn hlt hphase =>
    rw [CNetMessage.complete, hphase]
    refine (decide_eq_false ?_).symm
    omega
  | data hn hle hphase hhdr =>
    rw [CNetMessage.complete, hphase, hhdr]
    show (p.payload.length == msg.nDataPos) = _
    rw [Bool.eq_iff_iff, beq_iff_eq, decide_eq_true_iff]
    omega

theorem Holds.whole (h : Holds env p msg n) (hn : n = (p.frame env).length) : Whole env msg p := by
  refine ⟨by rw [h.complete]; exact decide_eq_true hn, ?_, ?_⟩
  · cases h with
    | header hpos hlt => rw [Message.length_frame] at hn; omega
    | data _ _ _ hhdr => exact hhdr
  · cases h with
    | header hpos hlt => rw [Message.length_frame] at hn; omega
    | data hpos hle _ _ hlength hbytes =>
      rw [Message.length_frame] at hn
      have hall : msg.nDataPos = p.payload.length := by omega
      rwa [hall, List.take_length, ← hlength, List.take_length] at hbytes

/-- One round of `ReceiveMsgBytes`, without the choice of the message. -/
def CNetMessage.absorb (msg : CNetMessage) (pch : List UInt8) : Option (CNetMessage × Nat) :=
  if !msg.in_data then msg.readHeader pch else some (msg.readData pch)

/-- What a round copies are the next bytes of the message. -/
theorem take_next {pch xs ys : List UInt8} {k : Nat} (h : pch <+: xs ++ ys) (hk : k ≤ xs.length)
    (hk' : k ≤ pch.length) : pch.take k = xs.take k := by
  obtain ⟨zs, hzs⟩ := h
  rw [← List.take_append_of_le_length hk', hzs, List.take_append_of_le_length hk]

/-- A round takes bytes of the message, and not more of them than the message has. -/
theorem Holds.absorb {pch rest : List UInt8} (hsize : p.payload.length ≤ maxSize)
    (h : Holds env p msg n) (hn : n < (p.frame env).length) (hpch : pch ≠ [])
    (hnew : pch <+: (p.frame env).drop n ++ rest) : ∃ msg' k,
      msg.absorb pch = some (msg', k) ∧ 0 < k ∧ k ≤ pch.length ∧ n + k ≤ (p.frame env).length ∧
        Holds env p msg' (n + k) ∧ pch.take k = ((p.frame env).drop n).take k := by
  have hpos : 0 < pch.length := List.length_pos_of_ne_nil hpch
  rw [Message.length_frame] at hn ⊢
  have hnext : ∀ k, k ≤ pch.length → n + k ≤ 24 + p.payload.length →
      pch.take k = ((p.frame env).drop n).take k := by
    intro k hk hnk
    refine take_next hnew ?_ hk
    rw [List.length_drop, Message.length_frame]
    omega
  cases h with
  | header hat hlt hphase hlength hbytes hvRecv hdata =>
    subst hat
    generalize hk : min (24 - msg.nHdrPos) pch.length = k
    have hk24 : msg.nHdrPos + k ≤ 24 := by omega
    have hcopied : pch.take k = ((p.header env).serialize.drop msg.nHdrPos).take k := by
      rw [hnext k (by omega) (by omega), Message.frame, List.drop_append_of_le_length,
        List.take_append_of_le_length]
      · rw [List.length_drop, Message.length_header]
        omega
      · rw [Message.length_header]
        omega
    have hlen : (pch.take k).length = k := by rw [List.length_take]; omega
    have hbuf : (overwrite msg.hdrbuf msg.nHdrPos (pch.take k)).take (msg.nHdrPos + k) =
        (p.header env).serialize.take (msg.nHdrPos + k) := by
      have htake := @take_overwrite _ msg.hdrbuf (pch.take k) msg.nHdrPos (Nat.le_of_lt (hlength ▸ hlt))
      rw [hlen] at htake
      rw [htake, hbytes, hcopied, ← List.take_add]
    have hbuflen : (overwrite msg.hdrbuf msg.nHdrPos (pch.take k)).length = 24 := by
      rw [length_overwrite (by rw [hlen, hlength]; exact hk24), hlength]
    have hround : msg.absorb pch = msg.readHeader pch := by
      rw [CNetMessage.absorb, hphase]
      rfl
    rw [hround]
    unfold CNetMessage.readHeader
    rw [show CMessageHeader.headerSize = 24 from rfl]
    dsimp only
    rw [hk]
    by_cases hdone : msg.nHdrPos + k < 24
    · rw [if_pos hdone]
      exact ⟨_, k, rfl, by omega, by omega, by omega,
        .header rfl hdone hphase hbuflen hbuf hvRecv hdata, hnext k (by omega) (by omega)⟩
    · have heq : msg.nHdrPos + k = 24 := by omega
      rw [if_neg hdone]
      rw [heq, List.take_of_length_le (Nat.le_of_eq hbuflen),
        List.take_of_length_le (Nat.le_of_eq (Message.length_header env p))] at hbuf
      rw [hbuf, Message.unserialize_header env p hsize]
      dsimp only
      rw [if_neg (show ¬ maxSize < (p.header env).nMessageSize from Nat.not_lt.mpr hsize)]
      refine ⟨_, k, rfl, by omega, by omega, by omega, ?_, hnext k (by omega) (by omega)⟩
      refine .data (by show msg.nHdrPos + k = 24 + msg.nDataPos; omega)
        (by rw [hdata]; exact Nat.zero_le _) rfl rfl (by rw [hvRecv]; simp [Message.header]) ?_
      rw [hdata]
      rfl
  | data hat hle hphase hhdr hlength hbytes =>
    subst hat
    generalize hk : min (p.payload.length - msg.nDataPos) pch.length = k
    have hcopied : pch.take k = (p.payload.drop msg.nDataPos).take k := by
      rw [hnext k (by omega) (by omega), Message.frame, ← List.drop_drop, List.drop_left']
      exact Message.length_header env p
    have hlen : (pch.take k).length = k := by rw [List.length_take]; omega
    have hbuf : (overwrite msg.vRecv msg.nDataPos (pch.take k)).take (msg.nDataPos + k) =
        p.payload.take (msg.nDataPos + k) := by
      have htake := @take_overwrite _ msg.vRecv (pch.take k) msg.nDataPos (hlength.symm ▸ hle)
      rw [hlen] at htake
      rw [htake, hbytes, hcopied, ← List.take_add]
    have hbuflen : (overwrite msg.vRecv msg.nDataPos (pch.take k)).length = p.payload.length := by
      rw [length_overwrite (by rw [hlen, hlength]; omega), hlength]
    have hround : msg.absorb pch = some (msg.readData pch) := by
      rw [CNetMessage.absorb, hphase]
      rfl
    rw [hround]
    unfold CNetMessage.readData
    rw [hhdr, show (p.header env).nMessageSize = p.payload.length from rfl]
    dsimp only
    rw [hk]
    refine ⟨_, k, rfl, by omega, by omega, by omega, ?_, hnext k (by omega) (by omega)⟩
    exact .data (Nat.add_assoc _ _ _) (by show msg.nDataPos + k ≤ _; omega) hphase rfl hbuflen hbuf

end receiver

/-- What the peer has received of the messages `pushed`, when `rest` is still to come: whole
messages, and possibly the beginning of the next one. -/
def Received (env : Env) (pushed : List Message) (vRecvMsg : List CNetMessage)
    (rest : List UInt8) : Prop :=
  ∃ done todo whole, pushed = done ++ todo ∧ List.Forall₂ (Whole env) whole done ∧
    ((vRecvMsg = whole ∧ rest = todo.flatMap (Message.frame env)) ∨
      ∃ p todo' msg n, todo = p :: todo' ∧ vRecvMsg = whole ++ [msg] ∧ Holds env p msg n ∧
        n < (p.frame env).length ∧
        rest = (p.frame env).drop n ++ todo'.flatMap (Message.frame env))

theorem complete_of_whole {env : Env} {whole : List CNetMessage} {done : List Message}
    (h : List.Forall₂ (Whole env) whole done) {msg : CNetMessage} (hmsg : msg ∈ whole) :
    msg.complete = true := by
  induction h with
  | nil => exact absurd hmsg List.not_mem_nil
  | cons hfirst _ ih =>
    rcases List.mem_cons.mp hmsg with rfl | hmsg
    · exact hfirst.complete
    · exact ih hmsg

section received

variable {env : Env} {pushed : List Message} {vRecvMsg : List CNetMessage} {rest : List UInt8}

/-- The message a round works on holds a proper part of the next message. -/
theorem Received.current (h : Received env pushed vRecvMsg rest) (hrest : rest ≠ []) :
    ∃ done p todo whole n, pushed = done ++ p :: todo ∧ List.Forall₂ (Whole env) whole done ∧
      (currentMessage env vRecvMsg).1 = whole ∧ Holds env p (currentMessage env vRecvMsg).2 n ∧
      n < (p.frame env).length ∧
      rest = (p.frame env).drop n ++ todo.flatMap (Message.frame env) := by
  obtain ⟨done, todo, whole, hpushed, hwhole, ⟨rfl, hbytes⟩ | ⟨p, todo', msg, n, rfl, rfl, hholds,
    hn, hbytes⟩⟩ := h
  · cases todo with
    | nil => exact absurd hbytes hrest
    | cons p todo =>
      have hnew : currentMessage env vRecvMsg = (vRecvMsg, .empty env) := by
        unfold currentMessage
        cases hlast : vRecvMsg.getLast? with
        | none => rfl
        | some msg =>
          dsimp only
          rw [if_pos (complete_of_whole hwhole (List.mem_of_getLast? hlast))]
      refine ⟨done, p, todo, vRecvMsg, 0, hpushed, hwhole, by rw [hnew], ?_, ?_, hbytes⟩
      · rw [hnew]
        exact .empty env p
      · rw [Message.length_frame]
        omega
  · have hpart : msg.complete = false := by
      rw [hholds.complete]
      exact decide_eq_false (Nat.ne_of_lt hn)
    have hold : currentMessage env (whole ++ [msg]) = (whole, msg) := by
      rw [currentMessage, List.getLast?_concat]
      dsimp only
      rw [hpart, if_neg Bool.false_ne_true, List.dropLast_concat]
    exact ⟨done, p, todo', whole, n, hpushed, hwhole, by rw [hold], by rw [hold]; exact hholds, hn,
      hbytes⟩

/-- `ReceiveMsgBytes` takes the next bytes of the stream, however many. -/
theorem receiveMsgBytes_ok {pch rest' : List UInt8} {fuel : Nat}
    (hsize : ∀ p ∈ pushed, p.payload.length ≤ maxSize) (h : Received env pushed vRecvMsg rest)
    (hrest : rest = pch ++ rest') (hfuel : pch.length ≤ fuel) : ∃ vRecvMsg',
      receiveMsgBytes env fuel vRecvMsg pch = some vRecvMsg' ∧
        Received env pushed vRecvMsg' rest' := by
  induction fuel generalizing pch vRecvMsg rest with
  | zero =>
    obtain rfl := List.length_eq_zero_iff.mp (Nat.le_zero.mp hfuel)
    exact ⟨vRecvMsg, by rw [receiveMsgBytes], by rwa [hrest] at h⟩
  | succ fuel ih =>
    cases pch with
    | nil => exact ⟨vRecvMsg, by rw [receiveMsgBytes], by rwa [hrest] at h⟩
    | cons b bs =>
      obtain ⟨done, p, todo, whole, n, hpushed, hwhole, hbefore, hholds, hn, hbytes⟩ :=
        h.current (by rw [hrest]; exact List.cons_ne_nil _ _)
      have hp : p ∈ pushed := by rw [hpushed]; exact List.mem_append_right _ List.mem_cons_self
      obtain ⟨msg', k, habsorb, hk, hkle, hnk, hholds', htaken⟩ :=
        hholds.absorb (hsize p hp) hn (List.cons_ne_nil b bs) ⟨rest', by rw [← hbytes, hrest]⟩
      -- the rest of the bytes continues the rest of the message
      have hsplit : (p.frame env).drop (n + k) ++ todo.flatMap (Message.frame env) =
          (b :: bs).drop k ++ rest' := by
        have htail := congrArg (List.drop k) (hbytes.symm.trans hrest)
        rwa [List.drop_append_of_le_length hkle, List.drop_append_of_le_length
          (by rw [List.length_drop]; omega), List.drop_drop] at htail
      have hreceived : Received env pushed (whole ++ [msg'])
          ((p.frame env).drop (n + k) ++ todo.flatMap (Message.frame env)) := by
        by_cases hdone : n + k = (p.frame env).length
        · refine ⟨done ++ [p], todo, whole ++ [msg'], by rw [hpushed, List.append_assoc]; rfl,
            List.rel_append hwhole (.cons (hholds'.whole hdone) .nil), .inl ⟨rfl, ?_⟩⟩
          rw [hdone, List.drop_length, List.nil_append]
        · exact ⟨done, p :: todo, whole, hpushed, hwhole,
            .inr ⟨p, todo, msg', n + k, rfl, rfl, hholds', by omega, rfl⟩⟩
      obtain ⟨vRecvMsg', hrun, hend⟩ := ih hreceived hsplit (by
        rw [List.length_drop]
        have := List.length_cons ▸ hfuel
        rw [List.length_cons]
        omega)
      refine ⟨vRecvMsg', ?_, hend⟩
      rw [receiveMsgBytes]
      rw [CNetMessage.absorb] at habsorb
      dsimp only
      rw [habsorb, hbefore]
      exact hrun

end received

/-! ## Runs -/

/-- The invariant of a connection: nothing is lost between the queue, the wire and the peer. -/
structure Faithful (env : Env) (c : Connection) : Prop where
  queued : Queued c.sender
  handedOn : c.sender.socket = []
  sizes : ∀ p ∈ c.pushed, p.payload.length ≤ maxSize
  received : Received env c.pushed c.vRecvMsg (c.wire ++ c.sender.unsent)

/-- The payload of a message that is pushed is not larger than allowed. -/
def Event.Allowed : Event → Prop
  | .push message _ _ => message.payload.length ≤ maxSize
  | _ => True

theorem Received.push {env : Env} {pushed : List Message} {vRecvMsg : List CNetMessage}
    {rest : List UInt8} (p : Message) (h : Received env pushed vRecvMsg rest) :
    Received env (pushed ++ [p]) vRecvMsg (rest ++ p.frame env) := by
  obtain ⟨done, todo, whole, rfl, hwhole, ⟨rfl, rfl⟩ | ⟨q, todo', msg, n, rfl, rfl, hholds, hn,
    rfl⟩⟩ := h
  · refine ⟨done, todo ++ [p], vRecvMsg, List.append_assoc _ _ _, hwhole, .inl ⟨rfl, ?_⟩⟩
    simp
  · refine ⟨done, q :: (todo' ++ [p]), whole, List.append_assoc _ _ _, hwhole,
      .inr ⟨q, todo' ++ [p], msg, n, rfl, rfl, hholds, hn, ?_⟩⟩
    simp

theorem Connection.step_ok {env : Env} {c : Connection} {event : Event} (h : Faithful env c)
    (hallowed : event.Allowed) : ∃ c', c.step env event = .ok (some c') ∧ Faithful env c' := by
  cases event with
  | push message dropped answers =>
    obtain ⟨node, hrun, hqueued, hbytes⟩ := pushMessage_ok dropped answers hallowed h.queued
    refine ⟨_, by rw [Connection.step, hrun]; rfl, ⟨⟨hqueued.idle, hqueued.size, hqueued.nonempty,
      hqueued.offset, hqueued.done⟩, rfl, ?_, ?_⟩⟩
    · intro p hp
      cases dropped with
      | true => exact h.sizes p hp
      | false =>
        rcases List.mem_append.mp hp with hp | hp
        · exact h.sizes p hp
        · exact List.mem_singleton.mp hp ▸ hallowed
    · rw [h.handedOn, List.nil_append] at hbytes
      show Received env _ c.vRecvMsg (c.wire ++ node.socket ++ node.unsent)
      rw [List.append_assoc, hbytes]
      cases dropped with
      | true =>
        show Received env c.pushed c.vRecvMsg (c.wire ++ (c.sender.unsent ++ []))
        rw [List.append_nil]
        exact h.received
      | false =>
        show Received env (c.pushed ++ [message]) c.vRecvMsg
          (c.wire ++ (c.sender.unsent ++ message.frame env))
        rw [← List.append_assoc]
        exact h.received.push message
  | send answers =>
    obtain ⟨node, hrun, hqueued, hbytes⟩ := socketSendData_ok answers h.queued
    refine ⟨c.sent node, by rw [Connection.step, hrun]; rfl, ⟨⟨hqueued.idle, hqueued.size,
      hqueued.nonempty, hqueued.offset, hqueued.done⟩, rfl, h.sizes, ?_⟩⟩
    rw [h.handedOn, List.nil_append] at hbytes
    show Received env _ c.vRecvMsg (c.wire ++ node.socket ++ node.unsent)
    rw [List.append_assoc, hbytes]
    exact h.received
  | deliver nBytes =>
    obtain ⟨vRecvMsg', hrun, hreceived⟩ := receiveMsgBytes_ok h.sizes h.received
      (show c.wire ++ c.sender.unsent = c.wire.take nBytes ++ (c.wire.drop nBytes ++
        c.sender.unsent) by rw [← List.append_assoc, List.take_append_drop]) (Nat.le_refl _)
    refine ⟨{ c with wire := c.wire.drop nBytes, vRecvMsg := vRecvMsg' }, ?_,
      ⟨h.queued, h.handedOn, h.sizes, hreceived⟩⟩
    rw [Connection.step, hrun]
    rfl

theorem Connection.run_ok {env : Env} {events : List Event} {c : Connection}
    (h : Faithful env c) (hallowed : ∀ event ∈ events, event.Allowed) :
    ∃ c', c.run env events = .ok (some c') ∧ Faithful env c' := by
  induction events generalizing c with
  | nil => exact ⟨c, rfl, h⟩
  | cons event events ih =>
    obtain ⟨hevent, hevents⟩ := List.forall_mem_cons.mp hallowed
    obtain ⟨c₁, hstep, h₁⟩ := c.step_ok h hevent
    obtain ⟨c', hrun, h'⟩ := ih h₁ hevents
    refine ⟨c', ?_, h'⟩
    rw [Connection.run, hstep]
    exact hrun

/-- What the peer has: whole messages, equal to the first ones pushed, and at most one that is
not complete yet. -/
def Delivered (env : Env) (pushed : List Message) (vRecvMsg : List CNetMessage) : Prop :=
  ∃ done todo whole part, pushed = done ++ todo ∧ vRecvMsg = whole ++ part ∧
    List.Forall₂ (Whole env) whole done ∧ part.length ≤ 1 ∧ ∀ msg ∈ part, msg.complete = false

theorem Received.delivered {env : Env} {pushed : List Message} {vRecvMsg : List CNetMessage}
    {rest : List UInt8} (h : Received env pushed vRecvMsg rest) :
    Delivered env pushed vRecvMsg := by
  obtain ⟨done, todo, whole, hpushed, hwhole, ⟨rfl, -⟩ | ⟨p, todo', msg, n, -, rfl, hholds, hn,
    -⟩⟩ := h
  · exact ⟨done, todo, vRecvMsg, [], hpushed, (List.append_nil _).symm, hwhole, Nat.zero_le _,
      fun _ hmsg => absurd hmsg List.not_mem_nil⟩
  · refine ⟨done, todo, whole, [msg], hpushed, rfl, hwhole, Nat.le_refl _, fun msg' hmsg => ?_⟩
    rw [List.mem_singleton.mp hmsg, hholds.complete]
    exact decide_eq_false (Nat.ne_of_lt hn)

/-- Two messages, the first of them without a payload: the socket takes five bytes, and the peer
gets them in two pieces. -/
def splitEvents : List Event :=
  [.push ⟨"verack".toUTF8.toList, []⟩ false [.bytes 5], .deliver 3,
    .push ⟨"ping".toUTF8.toList, [1, 2, 3]⟩ false [.again], .deliver 7, .send [.bytes 100, .bytes 26],
    .deliver 30]

end Network

end NoLimitCoin
