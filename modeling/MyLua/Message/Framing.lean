import MyLua.Message.Calls

/-!
# Message Framing

`dequeue` and `enqueue` compute their limits differently: the terminator on one side, the size
of `mtext_t` and the `mlen` field on the other. A payload that one of them sends is a payload
that the other returns, for every length up to the limit.

## Main results

- `appended_frame`: what an execution of `dequeue` puts on the queue.
- `received_of_takes`: what an execution of `enqueue` returns when it takes a message.
- `taken_frame`: what an execution of `enqueue` returns when it takes a frame.
- `framing_round_trip`: the two together, and the refusal of longer payloads.
-/

namespace MyLua.Message

open MyLua.Foundation

variable {strerror : Int → Bytes}

/-! ## §1 The sender -/

/-- In an execution of two system calls, the first of which is a `msgget`, anything else is the
second one. -/
theorem eq_second {a second : SysAct} {msgflg : BitVec 32} {r : Except Int Int}
    (ha : a ∈ [⟨.msgget msgflg, r⟩, second]) (hne : ∀ flg r, a ≠ ⟨.msgget flg, r⟩) :
    a = second := by
  rcases List.mem_cons.mp ha with hfirst | hsecond
  · exact absurd hfirst (hne msgflg r)
  · exact List.mem_singleton.mp hsecond

/-- A NUL-free string is sent as it is, and only if it is within the limit. -/
theorem appended_frame {p : Bytes} {type flag : Int} {acts : List SysAct} {rest : Program}
    (hp : (0 : UInt8) ∉ p) (h : (dequeue strerror p type flag).Does acts rest) {a : SysAct}
    (ha : a ∈ acts) {m : Message} (hm : a.appended = some m) :
    p.length + 1 ≤ MAX_MSG_LEN ∧ m = ⟨type, frame p⟩ ∧ rest = .ret (some (0, p)) := by
  have hcut := cut_of_nul_free hp
  have hne : ∀ flg r, a ≠ ⟨.msgget flg, r⟩ := by
    intro flg r hget
    rw [hget] at hm
    cases hm
  -- Only an execution whose `msgsnd` succeeded appends a message.
  cases shape_of_does (c := .dequeue p type flag) h with
  | fresh => cases ha
  | found =>
    rw [List.mem_singleton.mp ha] at hm
    cases hm
  | refused | created | notSent =>
    rw [eq_second ha hne] at hm
    cases hm
  | sent _ _ _ msqid short =>
    rw [hcut] at *
    rw [eq_second ha hne] at hm
    exact ⟨short, (Option.some.inj hm).symm, rfl⟩

/-- On a queue that exists, a string within the limit is sent. -/
theorem dequeue_sends {p : Bytes} (type flag msqid : Int) (hp : (0 : UInt8) ∉ p)
    (hshort : p.length + 1 ≤ MAX_MSG_LEN) :
    (dequeue strerror p type flag).Does
      [⟨.msgget 0, .ok msqid⟩, ⟨.msgsnd msqid type (frame p) (nowait flag), .ok ()⟩]
      (.ret (some (0, p))) := by
  have hcut := cut_of_nul_free hp
  have hprog : (Call.dequeue p type flag).prog strerror = _ :=
    prog_dequeue_of_short (by rw [hcut]; omega)
  rw [hcut, Call.prog] at hprog
  rw [hprog, ← take_sentMtext hshort, ← push_sentMtext hshort 0]
  exact .call (.call (.nothing _))

/-- A string over the limit is refused without a system call. -/
theorem dequeue_of_long {p : Bytes} (type flag : Int) (hp : (0 : UInt8) ∉ p)
    (hlong : 65536 ≤ p.length) :
    ∃ t, dequeue strerror p type flag = .ret (some (-2, t)) := by
  have hmax : MAX_MSG_LEN = 65536 := rfl
  have hcut := cut_of_nul_free hp
  obtain ⟨t, ht⟩ := pushError_eq length_zeroMtext (-2) (sizeText "retmag" (wrapInt p.length))
  refine ⟨t, ?_⟩
  have hrefused : (Call.dequeue p type flag).prog strerror = _ :=
    prog_dequeue_of_long (by rw [hcut]; omega)
  rw [hcut, ht] at hrefused
  exact hrefused

/-! ## §2 The receiver -/

/-- A performed `msgrcv` took the message `m` from a queue in state `w`. -/
def Takes (w : Option Queue) (a : SysAct) (w' : Option Queue) (m : Message) : Prop :=
  QueueSem w a.op a.res w' ∧ a.removed.isSome ∧
  ∃ msqid msgsz msgtyp flg rest,
    a.op = .msgrcv msqid msgsz msgtyp flg ∧ select (messages w) msgtyp = some (m, rest)

/-- What is taken comes without the bytes behind the size asked for. -/
theorem Takes.removed {w w' : Option Queue} {a : SysAct} {m : Message} (h : Takes w a w' m) :
    ∃ msqid msgsz msgtyp flg, a.op = .msgrcv msqid msgsz msgtyp flg ∧
      a.removed = some ⟨m.mtype, m.mtext.take msgsz⟩ := by
  obtain ⟨hsem, hremoved, msqid, msgsz, msgtyp, flg, rest, hop, hselect⟩ := h
  obtain ⟨op, r⟩ := a
  dsimp only at hop hsem
  subst hop
  refine ⟨msqid, msgsz, msgtyp, flg, rfl, ?_⟩
  cases hsem with
  | received selected =>
    -- `msgrcv` takes what `select` says.
    rw [messages, selected] at hselect
    obtain ⟨rfl, -⟩ := Prod.mk.inj (Option.some.inj hselect)
    rfl
  | notReceived => cases hremoved

/-- On a queue that exists, an `enqueue` that receives a frame returns its payload. -/
theorem enqueue_receives {p : Bytes} (mtype type flag msqid : Int)
    (hshort : p.length + 1 ≤ MAX_MSG_LEN) :
    (enqueue strerror type flag).Does
      [⟨.msgget 0, .ok msqid⟩,
        ⟨.msgrcv msqid sizeofMtext type (nowait flag ||| MSG_NOERROR), .ok (mtype, frame p)⟩]
      (.ret (some ((p.length : Int), p))) := by
  rw [← receivedMtext_frame hshort]
  exact .call (.call (.nothing _))

/-- An `enqueue` that takes a message returns what it makes of the bytes that fit its buffer. -/
theorem received_of_takes {type flag : Int} {acts : List SysAct} {rest : Program} {m : Message}
    (h : (enqueue strerror type flag).Does acts rest) {a : SysAct} (ha : a ∈ acts)
    {w w' : Option Queue} (ht : Takes w a w' m) :
    rest = .ret (receivedMtext (m.mtext.take sizeofMtext)) := by
  obtain ⟨msqid, msgsz, msgtyp, flg, hop, hremoved⟩ := ht.removed
  have hne : ∀ flg r, a ≠ ⟨.msgget flg, r⟩ := by
    intro flg r hget
    rw [hget] at hop
    cases hop
  -- Only an execution whose `msgrcv` succeeded takes a message.
  cases shape_of_does (c := .enqueue type flag) h with
  | fresh => cases ha
  | found =>
    rw [List.mem_singleton.mp ha] at hop
    cases hop
  | refused | created =>
    rw [eq_second ha hne] at hop
    cases hop
  | notReceived =>
    rw [eq_second ha hne] at hremoved
    cases hremoved
  | received _ _ _ mtype' mtext =>
    rw [eq_second ha hne] at hop hremoved
    cases hop
    have hmtext : mtext = m.mtext.take sizeofMtext :=
      congrArg Message.mtext (Option.some.inj hremoved)
    rw [hmtext]

/-- An `enqueue` that takes the frame of a payload within the limit returns the payload. -/
theorem taken_frame {p : Bytes} {mtype type flag : Int} {acts : List SysAct} {rest : Program}
    (hp : p.length + 1 ≤ MAX_MSG_LEN) (h : (enqueue strerror type flag).Does acts rest)
    {a : SysAct} (ha : a ∈ acts) {w w' : Option Queue} (ht : Takes w a w' ⟨mtype, frame p⟩) :
    rest = .ret (some ((p.length : Int), p)) := by
  have hmax : MAX_MSG_LEN = 65536 := rfl
  have hsize : sizeofMtext = 65552 := rfl
  have hlong : sizeofLong = 8 := rfl
  -- A frame is shorter than the buffer, so nothing is cut off.
  have hwhole : (frame p).take sizeofMtext = frame p := by
    rw [List.take_of_length_le]
    rw [length_frame]
    omega
  rw [received_of_takes h ha ht, hwhole, receivedMtext_frame hp]

/-! ## §3 The round trip -/

/-- **Framing round trip**: a message that a `dequeue` of a NUL-free payload puts on a queue has
the type it was given, the `dequeue` then returns 0, and any `enqueue` that takes the message,
from whatever queue it is in by then, returns the length of the payload and the payload. A
payload over the limit is refused with -2 and no queue operation. -/
theorem framing_round_trip (p : Bytes) (type flag : Int) (hp : (0 : UInt8) ∉ p) :
    (p.length ≤ 65535 →
      ∀ acts rest, (dequeue strerror p type flag).Does acts rest →
      ∀ a ∈ acts, ∀ m, SysAct.appended a = some m →
        m.mtype = type ∧ rest = .ret (some (0, p)) ∧
        ∀ type' flag' acts' rest', (enqueue strerror type' flag').Does acts' rest' →
        ∀ a' ∈ acts', ∀ w w', Takes w a' w' m → rest' = .ret (some ((p.length : Int), p))) ∧
    (65536 ≤ p.length → ∃ t, dequeue strerror p type flag = .ret (some (-2, t))) := by
  constructor
  · intro _ acts rest hsend a ha m hm
    obtain ⟨hshort, rfl, hrest⟩ := appended_frame hp hsend ha hm
    refine ⟨rfl, hrest, ?_⟩
    intro type' flag' acts' rest' hreceive a' ha' w w' htakes
    exact taken_frame hshort hreceive ha' htakes
  · exact dequeue_of_long type flag hp

/-- The payload `"hi"`, sent with type 7 and received by a call that asks for any type, and a
payload of 65536 characters. -/
theorem framing_round_trip_hi :
    (∃ acts rest, (enqueue (fun _ => []) 0 0).Does acts rest ∧
      rest = .ret (some (2, ascii "hi"))) ∧
    ∃ t, dequeue (fun _ => []) (List.replicate 65536 65) 7 0 = .ret (some (-2, t)) := by
  have hhi : (0 : UInt8) ∉ ascii "hi" := by decide
  have hshort : (ascii "hi").length + 1 ≤ MAX_MSG_LEN := by decide
  have hlong : (0 : UInt8) ∉ List.replicate 65536 65 :=
    fun h => absurd (List.eq_of_mem_replicate h) (by decide)
  constructor
  · -- The queue holds the message alone when it is received.
    have htakes : Takes (some ⟨5, [⟨7, frame (ascii "hi")⟩]⟩)
        ⟨.msgrcv 5 sizeofMtext 0 (nowait 0 ||| MSG_NOERROR), .ok (7, frame (ascii "hi"))⟩
        (some ⟨5, []⟩) ⟨7, frame (ascii "hi")⟩ :=
      ⟨.received (m := ⟨7, frame (ascii "hi")⟩) rfl (.inl (by decide)), rfl,
        5, sizeofMtext, 0, _, [], rfl, rfl⟩
    have hdequeue : (dequeue (fun _ => []) (ascii "hi") 7 0).Does _ _ :=
      dequeue_sends 7 0 5 hhi hshort
    have hsend := (framing_round_trip (ascii "hi") 7 0 hhi).1 (by decide) _ _ hdequeue _
      (List.mem_cons_of_mem _ List.mem_cons_self) _ rfl
    have hreceive := hsend.2.2 0 0 _ _ (enqueue_receives 7 0 0 5 hshort) _
      (List.mem_cons_of_mem _ List.mem_cons_self) _ _ htakes
    exact ⟨_, _, enqueue_receives 7 0 0 5 hshort, hreceive⟩
  · exact (framing_round_trip _ 7 0 hlong).2 List.length_replicate.ge

end MyLua.Message
