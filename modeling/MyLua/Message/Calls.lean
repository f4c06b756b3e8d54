import MyLua.Foundation.MessageQueue

/-!
# The Message Calls (`message/message.cpp`)

`libmsg.dequeue` sends a message and `libmsg.enqueue` receives one. A message is an `mtext_t`: its
length as an `unsigned long`, and then its bytes. The calls are programs over the system calls on
the queue of their key; what they push is a status and a string, where `none` is a read outside
the message buffer.

## Main results

- `shape_of_does`: all that a call can have performed, with what it pushes then.
- `receivedMtext_frame`: a message as `dequeue` sends it is accepted and returned by `enqueue`.
-/

namespace MyLua.Message

open MyLua.Foundation

/-! ## §1 The message buffer -/

def MAX_MSG_LEN : Nat := 1024 * 64

/-- `sizeof(long)`. -/
def sizeofLong : Nat := 8

/-- The size of `mcontent`. -/
def mcontentSize : Nat := MAX_MSG_LEN + 4

/-- `sizeof(mtext_t)`: a multiple of 8. -/
def sizeofMtext : Nat := sizeofLong + mcontentSize + 4

/-- The buffer of a new `msgbuf_t`. -/
def zeroMtext : Bytes := List.replicate sizeofMtext 0

/-- The field `mlen`. -/
def mlen (m : Bytes) : Nat := fromLE (m.take sizeofLong)

/-- `mlen = n`. -/
def setMlen (m : Bytes) (n : Nat) : Bytes := overwrite m 0 (toLE sizeofLong n)

/-- The field `mcontent`. -/
def mcontent (m : Bytes) : Bytes := (m.drop sizeofLong).take mcontentSize

/-- `snprintf(mcontent, MAX_MSG_LEN, ...)` with the text that the format gives. -/
def snprintf (m : Bytes) (text : Bytes) : Bytes :=
  overwrite m sizeofLong (text.take (MAX_MSG_LEN - 1) ++ [0])

/-- What a call pushes: `lua_pushlstring` reads `mlen` bytes of `mcontent`. -/
def push (ret : Int) (m : Bytes) : Option (Int × Bytes) :=
  if mlen m ≤ mcontentSize then some (ret, (mcontent m).take (mlen m)) else none

/-- An error: the text is printed to `mcontent`, and `mlen` is its length. -/
def pushError (ret : Int) (m : Bytes) (text : Bytes) : Option (Int × Bytes) := do
  let m := snprintf m text
  let content ← cString (mcontent m)
  push ret (setMlen m content.length)

/-- `%d`. -/
def decimal (n : Int) : Bytes := ascii (toString n)

/-- `"<call> fail: errno=%d,%s"`. -/
def failText (strerror : Int → Bytes) (call : String) (errno : Int) : Bytes :=
  ascii call ++ ascii " fail: errno=" ++ decimal errno ++ ascii "," ++ cut (strerror errno)

/-- `"<call> fail: msg size error(%d)"`. -/
def sizeText (call : String) (n : Int) : Bytes :=
  ascii call ++ ascii " fail: msg size error(" ++ decimal n ++ ascii ")"

/-! ## §2 The calls -/

/-- A program over the system calls that pushes a status and a string. -/
abbrev Program := Prog Sys Sys.Res (Option (Int × Bytes))

def createFlag : BitVec 32 := IPC_CREAT ||| IPC_EXCL ||| 0x1A4

/-- `if(flag) flag = IPC_NOWAIT`. -/
def nowait (flag : Int) : BitVec 32 := if flag ≠ 0 then IPC_NOWAIT else 0

/-- Both calls, when the first `msgget` finds no queue. -/
def create (strerror : Int → Bytes) : Program :=
  .call (.msgget createFlag) fun
    | .error errno => .ret (pushError (-1) zeroMtext (failText strerror "msgget" errno))
    -- `ret` is still 0, and nothing is sent or received.
    | .ok _ => .ret (push 0 zeroMtext)

/-- `enqueue` after `msgrcv` filled the buffer. -/
def receivedMtext (mtext : Bytes) : Option (Int × Bytes) :=
  let ret := mtext.length
  let m := overwrite zeroMtext 0 mtext
  if ret < sizeofLong ∨ ret + 4 > sizeofMtext ∨ ret ≠ (mlen m + sizeofLong) % 2 ^ 64 then
    -- Too short for a length, too long for the buffer, or not as long as it says.
    pushError (-2) m (sizeText "getmsg" ret)
  else push ((ret : Int) - sizeofLong) m

/-- `enqueue` on the queue it found. -/
def receive (strerror : Int → Bytes) (type flag msgid : Int) : Program :=
  .call (.msgrcv msgid sizeofMtext type (nowait flag ||| MSG_NOERROR)) fun
    | .error errno => .ret (pushError (-1) zeroMtext (failText strerror "msgrcv" errno))
    | .ok (_, mtext) => .ret (receivedMtext mtext)

/-- `libmsg.enqueue`. -/
def enqueue (strerror : Int → Bytes) (type flag : Int) : Program :=
  .call (.msgget 0) fun
    | .error _ => create strerror
    | .ok msgid => receive strerror type flag msgid

/-- The buffer in which `dequeue` sends `p`. -/
def sentMtext (p : Bytes) : Bytes := snprintf (setMlen zeroMtext p.length) p

/-- `dequeue` on the queue it found. -/
def send (strerror : Int → Bytes) (p : Bytes) (type flag msgid : Int) : Program :=
  .call (.msgsnd msgid type ((sentMtext p).take (p.length + sizeofLong)) (nowait flag)) fun
    | .error errno => .ret (pushError (-1) (sentMtext p) (failText strerror "msgsnd" errno))
    | .ok _ => .ret (push 0 (sentMtext p))

/-- `libmsg.dequeue`. -/
def dequeue (strerror : Int → Bytes) (s : Bytes) (type flag : Int) : Program :=
  let p := cut s
  -- Without room for a terminator the text is refused before the queue is looked at.
  if p.length + 1 > MAX_MSG_LEN then
    .ret (pushError (-2) zeroMtext (sizeText "retmag" (wrapInt p.length)))
  else
    .call (.msgget 0) fun
      | .error _ => create strerror
      | .ok msgid => send strerror p type flag msgid

/-- A call on the queue of one key, with its other arguments. -/
inductive Call where
  | dequeue (s : Bytes) (type flag : Int)
  | enqueue (type flag : Int)

/-- The program of a call. -/
def Call.prog (strerror : Int → Bytes) : Call → Program
  | .dequeue s type flag => MyLua.Message.dequeue strerror s type flag
  | .enqueue type flag => MyLua.Message.enqueue strerror type flag

/-! ## §3 Buffers -/

/-- The bytes of a message with payload `p`. -/
def frame (p : Bytes) : Bytes := toLE sizeofLong p.length ++ p

theorem length_frame (p : Bytes) : (frame p).length = sizeofLong + p.length := by
  rw [frame, List.length_append, length_toLE]

theorem length_zeroMtext : zeroMtext.length = sizeofMtext := List.length_replicate

theorem push_zeroMtext : push 0 zeroMtext = some (0, []) := by
  have hmlen : mlen zeroMtext = 0 := by
    have htake : zeroMtext.take sizeofLong = List.replicate 8 0 := List.take_replicate ..
    rw [mlen, htake]
    rfl
  rw [push, hmlen, if_pos (Nat.zero_le _), List.take_zero]

/-- A length that was stored in front of anything is read back. -/
theorem mlen_toLE {n : Nat} (hn : n ≤ mcontentSize) (rest : Bytes) :
    mlen (toLE sizeofLong n ++ rest) = n := by
  have hsize : mcontentSize = 65540 := rfl
  have h256 : 256 ^ sizeofLong = 18446744073709551616 := rfl
  rw [mlen, List.take_left' (length_toLE ..), fromLE_toLE (by omega)]

theorem mlen_frame {p : Bytes} (hp : p.length + 1 ≤ MAX_MSG_LEN) (rest : Bytes) :
    mlen (frame p ++ rest) = p.length := by
  rw [frame, List.append_assoc, mlen_toLE (by unfold mcontentSize; omega)]

/-- A buffer that begins with a frame holds its payload. -/
theorem push_frame {p rest : Bytes} (hp : p.length + 1 ≤ MAX_MSG_LEN) (ret : Int) :
    push ret (frame p ++ rest) = some (ret, p) := by
  have hsize : p.length ≤ mcontentSize := by unfold mcontentSize; omega
  have hdrop : (frame p ++ rest).drop sizeofLong = p ++ rest := by
    rw [frame, List.append_assoc, List.drop_left' (length_toLE ..)]
  rw [push, mlen_frame hp, if_pos hsize, mcontent, hdrop, List.take_take, Nat.min_eq_left hsize,
    List.take_left]

/-- What `dequeue` sends begins with the frame of its payload. -/
theorem sentMtext_eq {p : Bytes} (hp : p.length + 1 ≤ MAX_MSG_LEN) :
    ∃ rest, sentMtext p = frame p ++ rest := by
  have hmax : MAX_MSG_LEN = 65536 := rfl
  have hjoin : overwrite (overwrite zeroMtext 0 (toLE sizeofLong p.length)) sizeofLong (p ++ [0]) =
      overwrite zeroMtext 0 (toLE sizeofLong p.length ++ (p ++ [0])) :=
    overwrite_append (by rw [length_toLE, Nat.zero_add]) (by rw [length_zeroMtext]; decide)
  refine ⟨0 :: zeroMtext.drop (toLE sizeofLong p.length ++ (p ++ [0])).length, ?_⟩
  rw [sentMtext, snprintf, setMlen, List.take_of_length_le (by omega), hjoin, overwrite_zero, frame]
  simp only [List.append_assoc, List.cons_append, List.nil_append]

/-- The bytes that are sent are the frame, without what follows it in the buffer. -/
theorem take_sentMtext {p : Bytes} (hp : p.length + 1 ≤ MAX_MSG_LEN) :
    (sentMtext p).take (p.length + sizeofLong) = frame p := by
  obtain ⟨rest, hrest⟩ := sentMtext_eq hp
  rw [hrest, List.take_left' (by rw [length_frame, Nat.add_comm])]

/-- After it was sent, the text is pushed. -/
theorem push_sentMtext {p : Bytes} (hp : p.length + 1 ≤ MAX_MSG_LEN) (ret : Int) :
    push ret (sentMtext p) = some (ret, p) := by
  obtain ⟨rest, hrest⟩ := sentMtext_eq hp
  rw [hrest, push_frame hp]

/-- A message as `dequeue` sends it is accepted. -/
theorem receivedMtext_frame {p : Bytes} (hp : p.length + 1 ≤ MAX_MSG_LEN) :
    receivedMtext (frame p) = some ((p.length : Int), p) := by
  have hmax : MAX_MSG_LEN = 65536 := rfl
  have hsize : sizeofMtext = 65552 := rfl
  have hlong : sizeofLong = 8 := rfl
  have hlen := length_frame p
  -- The length in front of the payload is the right one, so none of the three checks fires.
  have hok : ¬ ((frame p).length < sizeofLong ∨ (frame p).length + 4 > sizeofMtext ∨
      (frame p).length ≠ (p.length + sizeofLong) % 2 ^ 64) := by
    rw [hlen]
    omega
  have hret : ((frame p).length : Int) - (sizeofLong : Int) = p.length := by
    rw [hlen]
    omega
  simp only [receivedMtext, overwrite_zero, mlen_frame hp, if_neg hok, hret, push_frame hp]

theorem length_sentMtext {p : Bytes} (hp : p.length + 1 ≤ MAX_MSG_LEN) :
    (sentMtext p).length = sizeofMtext := by
  have hsize : sizeofMtext = 65552 := rfl
  have hmax : MAX_MSG_LEN = 65536 := rfl
  have hlong : sizeofLong = 8 := rfl
  have hmlen : (setMlen zeroMtext p.length).length = sizeofMtext := by
    rw [setMlen, length_overwrite (by rw [length_toLE, length_zeroMtext]; decide), length_zeroMtext]
  rw [sentMtext, snprintf, length_overwrite, hmlen]
  simp only [List.length_append, List.length_take, List.length_singleton]
  omega

/-- An error pushes its status and a text. -/
theorem pushError_eq {m : Bytes} (hm : m.length = sizeofMtext) (ret : Int) (text : Bytes) :
    ∃ t, pushError ret m text = some (ret, t) := by
  have hmax : MAX_MSG_LEN = 65536 := rfl
  have hsize : sizeofMtext = 65552 := rfl
  have hlong : sizeofLong = 8 := rfl
  have hcap : mcontentSize = 65540 := rfl
  have htake : (m.take sizeofLong).length = sizeofLong := by
    rw [List.length_take]
    omega
  have hlen : (text.take (MAX_MSG_LEN - 1)).length + 1 ≤ MAX_MSG_LEN := by
    rw [List.length_take]
    omega
  -- The NUL that `snprintf` writes lies inside `mcontent`.
  obtain ⟨rest, hcontent⟩ : ∃ rest, mcontent (snprintf m text) =
      text.take (MAX_MSG_LEN - 1) ++ 0 :: rest := by
    have hdrop : (snprintf m text).drop sizeofLong = text.take (MAX_MSG_LEN - 1) ++
        0 :: m.drop (sizeofLong + (text.take (MAX_MSG_LEN - 1) ++ [0]).length) := by
      rw [snprintf, overwrite, List.append_assoc, List.drop_left' htake, List.append_assoc,
        List.singleton_append]
    rw [mcontent, hdrop, List.take_append, List.take_of_length_le (by omega),
      List.take_cons (by omega)]
    exact ⟨_, rfl⟩
  have hcut := length_cut_le (text.take (MAX_MSG_LEN - 1))
  have hread : mlen (setMlen (snprintf m text) (cut (text.take (MAX_MSG_LEN - 1))).length) =
      (cut (text.take (MAX_MSG_LEN - 1))).length := by
    rw [setMlen, overwrite_zero, mlen_toLE (by omega)]
  simp only [pushError, hcontent, cString_append_nul, Option.bind_eq_bind, Option.bind_some, push,
    hread]
  rw [if_pos (by omega)]
  exact ⟨_, rfl⟩

/-! ## §4 Executions -/

/-- What a call can have performed, and what is left of it. -/
inductive Shape (strerror : Int → Bytes) : Call → List SysAct → Program → Prop where
  | fresh (c : Call) : Shape strerror c [] (c.prog strerror)
  | found (c : Call) (r : Except Int Int) (op : Sys) (k : op.Res → Program) :
      Shape strerror c [⟨.msgget 0, r⟩] (.call op k)
  | refused (c : Call) (errno errno' : Int) (t : Bytes) :
      Shape strerror c [⟨.msgget 0, .error errno⟩, ⟨.msgget createFlag, .error errno'⟩]
        (.ret (some (-1, t)))
  | created (c : Call) (errno msqid : Int) :
      Shape strerror c [⟨.msgget 0, .error errno⟩, ⟨.msgget createFlag, .ok msqid⟩]
        (.ret (some (0, [])))
  | notSent (s : Bytes) (type flag msqid errno : Int) (t : Bytes) :
      Shape strerror (.dequeue s type flag)
        [⟨.msgget 0, .ok msqid⟩, ⟨.msgsnd msqid type (frame (cut s)) (nowait flag), .error errno⟩]
        (.ret (some (-1, t)))
  | sent (s : Bytes) (type flag msqid : Int) (short : (cut s).length + 1 ≤ MAX_MSG_LEN) :
      Shape strerror (.dequeue s type flag)
        [⟨.msgget 0, .ok msqid⟩, ⟨.msgsnd msqid type (frame (cut s)) (nowait flag), .ok ()⟩]
        (.ret (some (0, cut s)))
  | notReceived (type flag msqid errno : Int) (t : Bytes) :
      Shape strerror (.enqueue type flag)
        [⟨.msgget 0, .ok msqid⟩,
          ⟨.msgrcv msqid sizeofMtext type (nowait flag ||| MSG_NOERROR), .error errno⟩]
        (.ret (some (-1, t)))
  | received (type flag msqid mtype : Int) (mtext : Bytes) :
      Shape strerror (.enqueue type flag)
        [⟨.msgget 0, .ok msqid⟩,
          ⟨.msgrcv msqid sizeofMtext type (nowait flag ||| MSG_NOERROR), .ok (mtype, mtext)⟩]
        (.ret (receivedMtext mtext))

variable {strerror : Int → Bytes}

/-- After the first `msgget` found no queue. -/
theorem shape_create {c : Call} {errno : Int} {acts : List SysAct} {rest : Program}
    (h : (create strerror).Does acts rest) :
    Shape strerror c (⟨.msgget 0, .error errno⟩ :: acts) rest := by
  cases h with
  | nothing => exact .found c _ _ _
  | @call _ _ r acts _ hrest =>
    cases r with
    | error errno' =>
      -- The second `msgget` failed as well.
      obtain ⟨t, ht⟩ := pushError_eq length_zeroMtext (-1) (failText strerror "msgget" errno')
      dsimp only at hrest
      rw [ht] at hrest
      obtain ⟨rfl, rfl⟩ := hrest.of_ret
      exact .refused c errno errno' t
    | ok msqid =>
      dsimp only at hrest
      rw [push_zeroMtext] at hrest
      obtain ⟨rfl, rfl⟩ := hrest.of_ret
      exact .created c errno msqid

theorem shape_send {s : Bytes} {type flag msqid : Int} {acts : List SysAct} {rest : Program}
    (hshort : (cut s).length + 1 ≤ MAX_MSG_LEN)
    (h : (send strerror (cut s) type flag msqid).Does acts rest) :
    Shape strerror (.dequeue s type flag) (⟨.msgget 0, .ok msqid⟩ :: acts) rest := by
  unfold send at h
  rw [take_sentMtext hshort] at h
  cases h with
  | nothing => exact .found _ _ _ _
  | @call _ _ r acts _ hrest =>
    cases r with
    | error errno =>
      -- An error is reported in place of the text that was to be sent.
      obtain ⟨t, ht⟩ := pushError_eq (length_sentMtext hshort) (-1)
        (failText strerror "msgsnd" errno)
      dsimp only at hrest
      rw [ht] at hrest
      obtain ⟨rfl, rfl⟩ := hrest.of_ret
      exact .notSent s type flag msqid errno t
    | ok _ =>
      dsimp only at hrest
      rw [push_sentMtext hshort] at hrest
      obtain ⟨rfl, rfl⟩ := hrest.of_ret
      exact .sent s type flag msqid hshort

theorem shape_receive {type flag msqid : Int} {acts : List SysAct} {rest : Program}
    (h : (receive strerror type flag msqid).Does acts rest) :
    Shape strerror (.enqueue type flag) (⟨.msgget 0, .ok msqid⟩ :: acts) rest := by
  cases h with
  | nothing => exact .found _ _ _ _
  | @call _ _ r acts _ hrest =>
    cases r with
    | error errno =>
      obtain ⟨t, ht⟩ := pushError_eq length_zeroMtext (-1) (failText strerror "msgrcv" errno)
      dsimp only at hrest
      rw [ht] at hrest
      obtain ⟨rfl, rfl⟩ := hrest.of_ret
      exact .notReceived type flag msqid errno t
    | ok received =>
      obtain ⟨mtype, mtext⟩ := received
      obtain ⟨rfl, rfl⟩ := hrest.of_ret
      exact .received type flag msqid mtype mtext

/-- A text that does not fit is refused without a system call. -/
theorem prog_dequeue_of_long {s : Bytes} {type flag : Int}
    (hlong : (cut s).length + 1 > MAX_MSG_LEN) :
    (Call.dequeue s type flag).prog strerror =
      .ret (pushError (-2) zeroMtext (sizeText "retmag" (wrapInt (cut s).length))) :=
  if_pos hlong

theorem prog_dequeue_of_short {s : Bytes} {type flag : Int}
    (hshort : ¬ (cut s).length + 1 > MAX_MSG_LEN) :
    (Call.dequeue s type flag).prog strerror = .call (.msgget 0) fun
      | .error _ => create strerror
      | .ok msgid => send strerror (cut s) type flag msgid :=
  if_neg hshort

/-- All that a call can have performed, with what it pushes then. -/
theorem shape_of_does {c : Call} {acts : List SysAct} {rest : Program}
    (h : (c.prog strerror).Does acts rest) : Shape strerror c acts rest := by
  cases c with
  | dequeue s type flag =>
    -- A long text is refused at once; otherwise the first `msgget` decides what follows.
    by_cases hlong : (cut s).length + 1 > MAX_MSG_LEN
    · rw [prog_dequeue_of_long hlong] at h
      obtain ⟨rfl, rfl⟩ := h.of_ret
      rw [← prog_dequeue_of_long hlong]
      exact .fresh _
    · rw [prog_dequeue_of_short hlong] at h
      cases h with
      | nothing =>
        rw [← prog_dequeue_of_short hlong]
        exact .fresh _
      | @call _ _ r acts _ hrest =>
        cases r with
        | error errno => exact shape_create hrest
        | ok msqid => exact shape_send (by omega) hrest
  | enqueue type flag =>
    cases h with
    | nothing => exact .fresh _
    | @call _ _ r acts _ hrest =>
      cases r with
      | error errno => exact shape_create hrest
      | ok msqid => exact shape_receive hrest

end MyLua.Message
