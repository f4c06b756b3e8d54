import MyLua.Message.Acceptance
import MyLua.Service.Codecs

/-!
# One Request

The script keeps its contract: alone with what the contract lets it rely on, it never runs into an
error, closes the number it got, and ends with the text of its own number, a message sent at most
once, and the payload of a message that was sent to it.

## Main results

- `dequeue_keeps`, `enqueue_keeps`: the two calls of `libmsg` as parts of a script.
- `main_keeps`: the script.
-/

namespace MyLua.Service

open MyLua.Foundation
open MyLua.MainFrame (Call Outcome)

variable {Num : Type} [LuaInteger Num] {env : Env} {workers : Nat} {queue : Option Queue}
  {sent : List Message}

/-! ## §1 What a request shows -/

/-- The results of `libmsg.dequeue`: an error; or the text, which was sent; or the queue was
created. -/
def Sent (sent : List Message) (k : Bytes) (a : Int) (b : Bytes) : Prop :=
  a = -1 ∨ a = 0 ∧ (b = k ∧ ⟨3, Message.frame k⟩ ∈ sent ∨ b = [])

/-- The results of `libmsg.enqueue`: nothing was received, the queue was created, a message that
was in the queue before the process started is refused, or the payload of a message is returned. -/
def Received (workers : Nat) (queue : Option Queue) (sent : List Message) (c : Int) (d : Bytes) :
    Prop :=
  c = -1 ∨ (c = 0 ∧ d = []) ∨ (c = -2 ∧ ∃ m ∈ messages queue, ¬ Message.WellFramed m.mtext) ∨
    ∃ m, Known workers queue sent m ∧ Message.WellFramed m.mtext ∧ d = m.mtext.drop 8 ∧ c = d.length

/-- The codecs gave back the text wherever they should. -/
def decoded (env : Env) (k garbled : Bytes) : List Bytes :=
  [Tools.encodeText k, k, Tools.percentText (Tools.hexStringEscapes env.isprint) k, k,
    Tools.percentText Tools.stringEscapes k, k, garbled]

/-- A request is served: the script ends without an error, having read back what it stored under
its own number, and printed and sent the text of it. -/
def Served (env : Env) (workers : Nat) (queue : Option Queue) (sent : List Message) (r : Ended) :
    Prop :=
  ∃ (n : Int) (garbled b d : Bytes) (a c : Int), 1 ≤ n ∧ n ≤ workers ∧
    r = .finished (printed (record n) (decoded env (record n) garbled) a b c d) a b c d ∧
    Sent sent (record n) a b ∧ Received workers queue sent c d

/-- The script received nothing, with an error. -/
def Ended.missed : Ended → Bool
  | .error => false
  | .finished _ _ _ c _ => c < 0

/-- How a script ends: it holds no number, and it received a message if it sent one, or reports
that it could not. -/
def Finished (env : Env) (workers : Nat) (queue : Option Queue) (sent : List Message) (s : Stage)
    (x : Option Ended) : Prop :=
  s.held = none ∧
    ∃ r, x = some r ∧ Served env workers queue sent r ∧ (s.owes = true → r.missed = true)

/-! ## §2 The main frame -/

section MainFrame

variable {α : Type} {fin : Stage → α → Prop} {s : Stage}

/-- A call of the main frame, with the operation it decodes to. -/
theorem keeps_frame {call : Call Num} {op : MainFrame.Op} {k : Outcome → Prog (ScriptOp Num) _ α}
    (hop : call.op = op) (hmay : s.mayCall op)
    (hrest : ∀ r, s.getsFrom workers op r → (k r).Keeps (contract workers queue sent) fin
      (s.afterCall op r)) :
    (Prog.call (.frame call) k).Keeps (contract workers queue sent) fin s := by
  subst hop
  exact ⟨hmay, hrest⟩

variable {n : Int}

/-- A list whose first argument is the number of the script. -/
theorem getDataInt_number (hint : IsInt n) (L : List (LuaValue Num)) :
    MainFrame.getDataInt (luaArg (.number (LuaInteger.ofInt n) :: L) 1) = some n :=
  congrArg some (LuaInteger.toInt_ofInt hint)

theorem indexed_of_pos (hpos : 1 ≤ n) (op : Int → Option MainFrame.Op) :
    MainFrame.indexed (some n) op = (op n).getD .rejected :=
  if_neg (by omega)

theorem setValue_op (hpos : 1 ≤ n) (hint : IsInt n) (k1 k2 v : Bytes) :
    (Call.setValue [.number (LuaInteger.ofInt n : Num), .string k1, .string k2, .string v]).op =
      .set n (cut k1) (cut k2) (cut v) := by
  rw [Call.op, getDataInt_number hint, indexed_of_pos hpos]
  rfl

theorem getValue_op (hpos : 1 ≤ n) (hint : IsInt n) (k1 k2 : Bytes) :
    (Call.getValue [.number (LuaInteger.ofInt n : Num), .string k1, .string k2]).op =
      .get n (cut k1) (cut k2) := by
  rw [Call.op, getDataInt_number hint, indexed_of_pos hpos]
  rfl

theorem clsSeqno_op (hint : IsInt n) :
    (Call.clsSeqno [.number (LuaInteger.ofInt n : Num)]).op = .cls n := by
  rw [Call.op, getDataInt_number hint]
  rfl

variable {fin : Stage → Option Ended → Prop} {key v : String}

/-- The holder of a number stores under it. -/
theorem setInit_keeps {rest : Script Num} (hpos : 1 ≤ n) (hint : IsInt n) (hs : s.held = some n)
    (hkey : cut (ascii key) = ascii key) (hvalue : cut (ascii v) = ascii v)
    (hrest : rest.Keeps (contract workers queue sent) fin
      { s with content := fun k1 k2 =>
                 if k1 = ascii "init" ∧ k2 = ascii key then some (ascii v) else s.content k1 k2,
               touched := true }) :
    (setInit (.number (LuaInteger.ofInt n)) key v rest).Keeps (contract workers queue sent) fin
      s := by
  have hinit : cut (ascii "init") = ascii "init" := by decide
  apply keeps_frame (setValue_op hpos hint (ascii "init") (ascii key) (ascii v)) hs
  intro _ _
  rw [hinit, hkey, hvalue]
  exact hrest

/-- The holder of a number reads what it stored under it. -/
theorem getInit_keeps {rest : LuaValue Num → Script Num} (hpos : 1 ≤ n) (hint : IsInt n)
    (hs : s.held = some n) (hkey : cut (ascii key) = ascii key)
    (hcontent : s.content (ascii "init") (ascii key) = some (ascii v))
    (hvalue : cut (ascii v) = ascii v)
    (hrest : (rest (.string (ascii v))).Keeps (contract workers queue sent) fin
      { s with touched := true }) :
    (getInit (.number (LuaInteger.ofInt n)) key rest).Keeps (contract workers queue sent) fin
      s := by
  have hinit : cut (ascii "init") = ascii "init" := by decide
  apply keeps_frame (getValue_op hpos hint (ascii "init") (ascii key)) hs
  intro r hr
  have hread : r = .text (ascii v) := by
    rw [hinit, hkey, Stage.getsFrom, hcontent, Option.getD_some, hvalue] at hr
    exact hr
  rw [hread]
  exact hrest

end MainFrame

/-! ## §3 The queue -/

section Queue

variable {s : Stage} {strerror : Int → Bytes}

/-- The second `msgget`: it creates the queue, unless this script sent a message to it. -/
theorem create_keeps (s : Stage) (strerror : Int → Bytes) :
    (libmsg (Message.create strerror) : Prog (ScriptOp Num) _ _).Keeps (contract workers queue sent)
      (fun s' x => s' = s ∧ ((∃ t, x = some (-1, t)) ∨ x = some (0, []) ∧ s.owes = false)) s := by
  refine ⟨trivial, fun r hr => ?_⟩
  cases r with
  | error errno =>
    obtain ⟨t, ht⟩ := Message.pushError_eq Message.length_zeroMtext (-1)
      -- The queue is there by now, or the script may not look for it.
      (Message.failText strerror "msgget" errno)
    exact ⟨rfl, .inl ⟨t, ht⟩⟩
  -- The queue was created, which the contract only allows a script that owes nothing.
  | ok msqid => exact ⟨rfl, .inr ⟨Message.push_zeroMtext, hr rfl⟩⟩

/-- A text of the script fits into a message. -/
theorem room_of_lt {p : Bytes} (h : p.length < 2 ^ 15) : p.length + 1 ≤ Message.MAX_MSG_LEN := by
  unfold Message.MAX_MSG_LEN
  omega

theorem dequeue_of_short {p : Bytes} {type flag : Int} (hnul : (0 : UInt8) ∉ p)
    (hp : p.length + 1 ≤ Message.MAX_MSG_LEN) :
    Message.dequeue strerror p type flag = .call (.msgget 0) fun
      | .error _ => Message.create strerror
      | .ok msgid => Message.send strerror p type flag msgid := by
  have hcut := cut_of_nul_free hnul
  have hshort : ¬ (cut p).length + 1 > Message.MAX_MSG_LEN := by
    rw [hcut]
    exact not_lt.mpr hp
  have hprog : (Message.Call.dequeue p type flag).prog strerror = _ :=
    Message.prog_dequeue_of_short hshort
  rw [hcut] at hprog
  exact hprog

/-- `libmsg.dequeue` sends the text of the script, if anything. -/
theorem dequeue_keeps {n : Int} {k : Bytes} (hpos : 1 ≤ n) (hle : n ≤ workers) (hint : IsInt n)
    (hk : k = record n) (hs : s.owes = false) :
    (libmsg (Message.dequeue strerror k 3 1) : Prog (ScriptOp Num) _ _).Keeps
      (contract workers queue sent)
      (fun s' x => ∃ a b, x = some (a, b) ∧ Sent sent k a b ∧ ∃ o, s' = { s with owes := o })
      s := by
  have hnul : (0 : UInt8) ∉ k := hk ▸ nul_notMem_record hpos
  have hroom : k.length + 1 ≤ Message.MAX_MSG_LEN := room_of_lt (hk ▸ (length_record hpos hint).2)
  rw [dequeue_of_short hnul hroom]
  refine ⟨trivial, fun r _ => ?_⟩
  cases r with
  | error errno =>
    apply (create_keeps s strerror).mono
    rintro s' x ⟨rfl, hx⟩
    -- Without a queue the call tries to create it, and sends nothing.
    rcases hx with ⟨t, rfl⟩ | ⟨rfl, -⟩
    · exact ⟨-1, t, rfl, .inl rfl, s'.owes, rfl⟩
    · exact ⟨0, [], rfl, .inr ⟨rfl, .inr rfl⟩, s'.owes, rfl⟩
  | ok msgid =>
    -- The contract allows the message, since it is the text of the script's own number.
    have hframe : (Message.sentMtext k).take (k.length + Message.sizeofLong) =
        Message.frame (record n) := hk ▸ Message.take_sentMtext hroom
    refine ⟨⟨hs, n, hpos, hle, congrArg _ hframe⟩, fun r hr => ?_⟩
    cases r with
    | error errno =>
      obtain ⟨t, ht⟩ := Message.pushError_eq (Message.length_sentMtext hroom) (-1)
        (Message.failText strerror "msgsnd" errno)
      exact ⟨-1, t, ht, .inl rfl, s.owes, rfl⟩
    | ok _ =>
      -- What was sent is the whole text, behind its length.
      have hmem : ⟨3, (Message.sentMtext k).take (k.length + Message.sizeofLong)⟩ ∈ sent := hr
      rw [Message.take_sentMtext hroom] at hmem
      exact ⟨0, k, Message.push_sentMtext hroom 0, .inr ⟨rfl, .inl ⟨rfl, hmem⟩⟩, true, rfl⟩

/-- The texts of the scripts are well framed. -/
theorem wellFramed_of_isRecord (hw : workers < 2 ^ 31) {m : Message} (h : IsRecord workers m) :
    Message.WellFramed m.mtext := by
  obtain ⟨n, hpos, hle, rfl⟩ := h
  have hmax := (length_record hpos ⟨by omega, by omega⟩).2
  have hroom := room_of_lt hmax
  have hlen := Message.length_frame (record n)
  have hlong : Message.sizeofLong = 8 := rfl
  have hmlen := Message.mlen_frame hroom []
  rw [List.append_nil, Message.mlen, hlong] at hmlen
  show Message.WellFramed (Message.frame (record n))
  refine ⟨?_, ?_, ?_⟩
  · omega
  · omega
  · -- The length field is the length of the text, which is short enough.
    rw [hmlen]
    omega

/-- What `enqueue` makes of a message that was cut off at the size of its buffer. -/
theorem received_of_known (hw : workers < 2 ^ 31) {m : Message} (h : Known workers queue sent m) :
    ∃ c d, Message.receivedMtext (m.mtext.take Message.sizeofMtext) = some (c, d) ∧
      Received workers queue sent c d := by
  have hsize : Message.sizeofMtext = 65552 := rfl
  by_cases hframed : Message.WellFramed m.mtext
  · obtain ⟨h8, hmax, -⟩ := id hframed
    rw [List.take_of_length_le (by omega)]
    -- A well framed message is not cut off.
    refine ⟨_, _, Message.receivedMtext_wellFramed hframed,
      .inr (.inr (.inr ⟨m, h, hframed, rfl, ?_⟩))⟩
    rw [List.length_drop]
    omega
  · -- Only a message of another program is not well framed, also not when it is cut off.
    have hcut : ¬ Message.WellFramed (m.mtext.take Message.sizeofMtext) := by
      by_cases hlong : m.mtext.length ≤ Message.sizeofMtext
      · rw [List.take_of_length_le hlong]
        exact hframed
      · rintro ⟨-, hmax, -⟩
        rw [List.length_take] at hmax
        omega
    have hroom : (m.mtext.take Message.sizeofMtext).length ≤ Message.sizeofMtext := by
      rw [List.length_take]
      exact Nat.min_le_left _ _
    obtain ⟨t, ht⟩ := Message.receivedMtext_refused hroom hcut
    rcases h with hold | ⟨hrecord, -⟩
    · exact ⟨-2, t, ht, .inr (.inr (.inl ⟨rfl, m, hold, hframed⟩))⟩
    · exact absurd (wellFramed_of_isRecord hw hrecord) hframed

/-- `libmsg.enqueue` receives a message, or reports that it did not; a script that sent one does
not create the queue. -/
theorem enqueue_keeps (hw : workers < 2 ^ 31) (s : Stage) (strerror : Int → Bytes) :
    (libmsg (Message.enqueue strerror 0 1) : Prog (ScriptOp Num) _ _).Keeps
      (contract workers queue sent)
      (fun s' x => ∃ c d, x = some (c, d) ∧ Received workers queue sent c d ∧
        ∃ o, s' = { s with owes := o } ∧ (o = true → c < 0)) s := by
  refine ⟨trivial, fun r _ => ?_⟩
  cases r with
  | error errno =>
    apply (create_keeps s strerror).mono
    rintro s' x ⟨rfl, hx⟩
    -- Without a queue nothing is received; a script that sent does not create it.
    rcases hx with ⟨t, rfl⟩ | ⟨rfl, howes⟩
    · exact ⟨-1, t, rfl, .inl rfl, s'.owes, rfl, fun _ => by decide⟩
    · exact ⟨0, [], rfl, .inr (.inl ⟨rfl, rfl⟩), s'.owes, rfl, fun ht => by simp [howes] at ht⟩
  | ok msgid =>
    refine ⟨trivial, fun r hr => ?_⟩
    cases r with
    | error errno =>
      obtain ⟨t, ht⟩ := Message.pushError_eq Message.length_zeroMtext (-1)
        (Message.failText strerror "msgrcv" errno)
      exact ⟨-1, t, ht, .inl rfl, s.owes, rfl, fun _ => by decide⟩
    | ok received =>
      obtain ⟨mtype, mtext⟩ := received
      -- The contract says where the message comes from.
      obtain ⟨m, hknown, -, rfl⟩ := hr
      obtain ⟨c, d, hcall, hreceived⟩ := received_of_known hw hknown
      exact ⟨c, d, hcall, hreceived, false, rfl, nofun⟩

end Queue

/-! ## §4 The script -/

/-- `main`, from the text on. -/
theorem deliver_keeps (hw : workers < 2 ^ 31) {s : Stage} {n : Int} {k garbled : Bytes}
    (hpos : 1 ≤ n) (hle : n ≤ workers) (hint : IsInt n) (hs : s.held = some n)
    (ht : s.touched = true) (howes : s.owes = false) (hk : k = record n)
    (hcodecs : codecs env k = some (decoded env k garbled)) :
    (deliver env (.number (LuaInteger.ofInt n : Num)) k).Keeps (contract workers queue sent)
      (Finished env workers queue sent) s := by
  rw [deliver, hcodecs]
  -- The two calls of `libmsg` change only what the script owes.
  apply (dequeue_keeps hpos hle hint hk howes).bind
  rintro s₁ x ⟨a, b, rfl, hsent, o₁, rfl⟩
  apply (enqueue_keeps hw _ env.strerror).bind
  rintro s₂ x ⟨c, d, rfl, hreceived, o₂, rfl, hmissed⟩
  -- The script still holds its number and has stored under it, so it may close it.
  apply keeps_frame (s := { s with owes := o₂ }) (clsSeqno_op hint) ⟨hs, ht⟩
  intro r _
  refine ⟨rfl, _, rfl, ⟨n, garbled, b, d, a, c, hpos, hle, ?_, hk ▸ hsent, hreceived⟩, ?_⟩
  · rw [← hk]
  · exact fun ho => decide_eq_true (hmissed ho)

/-- The text, from what was read back. -/
theorem concat_line (n : Int) :
    concat [(.string (ascii "SeqNoPP=" ++ Message.decimal n) : LuaValue Num), .string (ascii "&g="),
        .string (ascii "sex"), .string (ascii "&g1="), .string (ascii "sex1"),
        .string (ascii "&g2="), .string (ascii "sex2"), .string (ascii "&g3="),
        .string (ascii "sex3"), .string (ascii "&None=none&")] = some (recordLine n) :=
  rfl

theorem concat_head {n : Int} (hint : IsInt n) :
    concat [.string (ascii "SeqNoPP="), .number (LuaInteger.ofInt n : Num)] =
      some (ascii "SeqNoPP=" ++ Message.decimal n) := by
  have htext : LuaNumber.toString (LuaInteger.ofInt n : Num) = Message.decimal n :=
    LuaInteger.toString_ofInt hint
  simp only [concat, luaToString, htext, Option.bind_eq_bind, Option.bind_some, List.append_nil]
  rfl

/-- **The script keeps its contract.** -/
theorem main_keeps (hw : workers < 2 ^ 31) (hA : env.Roomy (2 ^ 15)) :
    (main env : Script Num).Keeps (contract workers queue sent) (Finished env workers queue sent)
      Stage.idle := by
  have hop : (Call.getSeqno [.string (ascii "stack")] : Call Num).op = .stackSeqno := by
    have hcut : cut (ascii "stack") = ascii "stack" := by decide
    rw [Call.op]
    exact if_pos hcut
  apply keeps_frame (s := Stage.idle) hop rfl
  rintro r ⟨n, rfl, hpos, hle⟩
  -- The number is one of `1` to `workers`, so it is an `int` and prints in at most ten digits.
  have hint : IsInt n := ⟨by omega, by omega⟩
  have hlen := length_record hpos hint
  obtain ⟨garbled, hcodecs⟩ := codecs_eq (nul_notMem_record hpos) hlen.1 (by omega)
    (hA.mono (Nat.le_of_lt hlen.2))
  simp only [result, concat_head hint]
  apply setInit_keeps hpos hint rfl (by decide) (by decide)
  apply setInit_keeps hpos hint rfl (by decide) (by decide)
  apply setInit_keeps hpos hint rfl (by decide) (by decide)
  apply setInit_keeps hpos hint rfl (by decide) (by decide)
  -- What it reads is what it stored, since nobody else uses its number.
  apply getInit_keeps (v := "sex") hpos hint rfl (by decide) rfl (by decide)
  apply getInit_keeps (v := "sex1") hpos hint rfl (by decide) rfl (by decide)
  apply getInit_keeps (v := "sex2") hpos hint rfl (by decide) rfl (by decide)
  apply getInit_keeps (v := "sex3") hpos hint rfl (by decide) rfl (by decide)
  rw [concat_line]
  exact deliver_keeps hw hpos hle hint rfl rfl rfl rfl hcodecs

end MyLua.Service
