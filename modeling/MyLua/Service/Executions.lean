import MyLua.Message.Framing
import MyLua.Service.Requests

/-!
# Executions of a Request

The script can do what its contract promises: with a number from the stack and an open queue it
stores its values, reads them back, sends its text, receives a message, closes its number and ends.
And a thread can go through such an execution at any moment, while the others wait.

## Main results

- `main_executes`: an execution of the script, in four parts.
- `thread_calls`, `thread_performs`, `thread_leaves`: a thread goes through it, and out of `deal`.
- `two_requests`: two scripts that receive each other's text.
-/

namespace MyLua.Service

open MyLua.Foundation

variable {Num : Type} [LuaInteger Num] {env : Env}

/-! ## §1 The parts of an execution -/

section Parts

variable (Num)

/-- The script gets the number `n`. -/
def numberAct (n : Int) : Act (ScriptOp Num) ScriptOp.Res :=
  ⟨.frame (.getSeqno [.string (ascii "stack")]), .number n⟩

/-- It stores a value. -/
def setAct (n : Int) (key value : String) : Act (ScriptOp Num) ScriptOp.Res :=
  ⟨.frame (.setValue [.number (LuaInteger.ofInt n), .string (ascii "init"), .string (ascii key),
    .string (ascii value)]), .nothing⟩

/-- It reads a value. -/
def getAct (n : Int) (key value : String) : Act (ScriptOp Num) ScriptOp.Res :=
  ⟨.frame (.getValue [.number (LuaInteger.ofInt n), .string (ascii "init"), .string (ascii key)]),
    .text (ascii value)⟩

/-- It stores four values and reads them back. -/
def storeActs (n : Int) : List (Act (ScriptOp Num) ScriptOp.Res) :=
  [setAct Num n "good" "sex", setAct Num n "good1" "sex1", setAct Num n "good2" "sex2",
    setAct Num n "good3" "sex3", getAct Num n "good" "sex", getAct Num n "good1" "sex1",
    getAct Num n "good2" "sex2", getAct Num n "good3" "sex3"]

/-- System calls of the script. -/
def queueActs (acts : List SysAct) : List (Act (ScriptOp Num) ScriptOp.Res) :=
  acts.map fun a => ⟨.queue a.op, a.res⟩

/-- It finds the queue and sends its text. -/
def sendActs (msqid : Int) (k : Bytes) : List (Act (ScriptOp Num) ScriptOp.Res) :=
  queueActs Num [⟨.msgget 0, .ok msqid⟩,
    ⟨.msgsnd msqid 3 (Message.frame k) (Message.nowait 1), .ok ()⟩]

/-- It finds the queue and receives the payload `d`. -/
def receiveActs (msqid mtype : Int) (d : Bytes) : List (Act (ScriptOp Num) ScriptOp.Res) :=
  queueActs Num [⟨.msgget 0, .ok msqid⟩,
    ⟨.msgrcv msqid Message.sizeofMtext 0 (Message.nowait 1 ||| MSG_NOERROR),
      .ok (mtype, Message.frame d)⟩]

/-- It closes its number. -/
def closeAct (n : Int) : Act (ScriptOp Num) ScriptOp.Res :=
  ⟨.frame (.clsSeqno [.number (LuaInteger.ofInt n)]), .nothing⟩

end Parts

/-- How it ends after that. -/
def delivered (env : Env) (k garbled d : Bytes) : Ended :=
  .finished (printed k (decoded env k garbled) 0 k d.length d) 0 k d.length d

/-! ## §2 The script -/

/-- The script, up to its text. -/
theorem main_does (Num : Type) [LuaInteger Num] (env : Env) {n : Int} (hint : IsInt n) :
    ∃ rest, (main env : Script Num).Does [numberAct Num n] rest ∧
      rest.Does (storeActs Num n) (deliver env (.number (LuaInteger.ofInt n)) (record n)) := by
  refine ⟨_, .call (.nothing _), ?_⟩
  simp only [result, concat_head hint]
  -- Four calls of `set_value` and four of `get_value`, and then the text of what was read.
  refine .call (.call (.call (.call (.call (.call (.call (.call ?_)))))))
  simp only [result]
  rw [concat_line]
  exact .nothing _

omit [LuaInteger Num] in
theorem libmsg_does {p q : Message.Program} {acts : List SysAct} (h : p.Does acts q) :
    (libmsg p : Prog (ScriptOp Num) _ _).Does (queueActs Num acts) (libmsg q) := by
  induction h with
  | nothing p => exact .nothing _
  | call _ ih => exact .call ih

/-- The rest of the script, on an open queue. -/
theorem deliver_does (Num : Type) [LuaInteger Num] {k garbled : Bytes} (hnul : (0 : UInt8) ∉ k)
    (hroom : k.length + 1 ≤ Message.MAX_MSG_LEN)
    (hcodecs : codecs env k = some (decoded env k garbled)) (n msqid : Int) :
    ∃ rest, (deliver env (.number (LuaInteger.ofInt n : Num)) k).Does (sendActs Num msqid k) rest ∧
      ∀ mtype d, d.length + 1 ≤ Message.MAX_MSG_LEN →
        rest.Does (receiveActs Num msqid mtype d ++ [closeAct Num n])
          (.ret (some (delivered env k garbled d))) := by
  rw [deliver, hcodecs]
  have hsend := @Message.dequeue_sends env.strerror k 3 1 msqid hnul hroom
  refine ⟨_, (libmsg_does hsend).bind _, ?_⟩
  intro mtype d hd
  -- `dequeue` has returned, so `enqueue` is next.
  have hreceive := @Message.enqueue_receives env.strerror d mtype 0 1 msqid hd
  exact ((libmsg_does hreceive).bind _).trans (.call (.nothing _))

/-- **An execution of the script** that gets the number `n` and finds an open queue. -/
theorem main_executes (Num : Type) [LuaInteger Num] {n : Int} (hpos : 1 ≤ n) (hint : IsInt n)
    (hA : env.Roomy (2 ^ 15)) (msqid : Int) :
    ∃ (garbled : Bytes) (rest text sent : Script Num), (main env).Does [numberAct Num n] rest ∧
      rest.Does (storeActs Num n) text ∧ text.Does (sendActs Num msqid (record n)) sent ∧
      ∀ mtype d, d.length + 1 ≤ Message.MAX_MSG_LEN →
        sent.Does (receiveActs Num msqid mtype d ++ [closeAct Num n])
          (.ret (some (delivered env (record n) garbled d))) := by
  have hlen := length_record hpos hint
  obtain ⟨garbled, hcodecs⟩ := codecs_eq (nul_notMem_record hpos) hlen.1 (by omega)
    (hA.mono (Nat.le_of_lt hlen.2))
  obtain ⟨rest, hnumber, hstore⟩ := main_does Num env hint
  obtain ⟨sent, hsend, hreceive⟩ :=
    deliver_does Num (nul_notMem_record hpos) (room_of_lt hlen.2) hcodecs n msqid
  exact ⟨garbled, rest, _, sent, hnumber, hstore, hsend, hreceive⟩

/-! ## §3 The shared state -/

section Shared

variable {f f' : MainFrame.Frame} {q : Option Queue} {w : Shared}
  {acts : List (Act (ScriptOp Num) ScriptOp.Res)}

/-- A call of the main frame, and then other operations. -/
theorem performs_frame {call : MainFrame.Call Num} {r : MainFrame.Outcome} (now : Int)
    (runs : call.run now f = some (r, f')) (hlater : Performs Sem ⟨f', q⟩ acts w) :
    Performs Sem ⟨f, q⟩ (⟨.frame call, r⟩ :: acts) w :=
  ⟨_, .frame runs, hlater⟩

/-- The text is appended to the queue. -/
theorem performs_sendActs (f : MainFrame.Frame) (msqid : Int) (ms : List Message) (k : Bytes) :
    Performs Sem ⟨f, some ⟨msqid, ms⟩⟩ (sendActs Num msqid k)
      ⟨f, some ⟨msqid, ms ++ [⟨3, Message.frame k⟩]⟩⟩ :=
  ⟨_, .queue (.found (.inl rfl)), _, .queue (.sent (by decide)), rfl⟩

/-- The first message of the queue is received. -/
theorem performs_receiveActs (f : MainFrame.Frame) (msqid mtype : Int) (ms : List Message)
    {d : Bytes} (hroom : d.length + 1 ≤ Message.MAX_MSG_LEN) :
    Performs Sem ⟨f, some ⟨msqid, ⟨mtype, Message.frame d⟩ :: ms⟩⟩ (receiveActs Num msqid mtype d)
      ⟨f, some ⟨msqid, ms⟩⟩ := by
  have hsize : (Message.frame d).length ≤ Message.sizeofMtext := by
    rw [Message.length_frame]
    simp only [Message.sizeofMtext, Message.mcontentSize]
    omega
  have hsem := @QueueSem.received ⟨msqid, ⟨mtype, Message.frame d⟩ :: ms⟩ Message.sizeofMtext 0
    (Message.nowait 1 ||| MSG_NOERROR) ⟨mtype, Message.frame d⟩ ms rfl (.inl hsize)
  -- The buffer is long enough for the message as it is.
  dsimp only at hsem
  rw [List.take_of_length_le hsize] at hsem
  exact ⟨_, .queue (.found (.inl rfl)), _, .queue hsem, rfl⟩

theorem performs_append {w₁ w₂ : Shared} {acts' : List (Act (ScriptOp Num) ScriptOp.Res)}
    (h : Performs Sem w acts w₁) (h' : Performs Sem w₁ acts' w₂) :
    Performs Sem w (acts ++ acts') w₂ := by
  induction acts generalizing w with
  | nil =>
    obtain rfl : w = w₁ := h
    exact h'
  | cons a acts ih =>
    obtain ⟨w', hsem, hlater⟩ := h
    exact ⟨w', hsem, ih hlater⟩

end Shared

/-! ## §4 The threads -/

variable {p : Process Num} (before : List (Thread Num)) {after : List (Thread Num)}

/-- The steps of `deal` from the outer loop to a call. -/
def callEvents (Num : Type) [LuaInteger Num] : List (ProcessEvent Num) :=
  [.deal (.guard true), .deal .reset, .deal .init, .deal (.run true), .deal (.read true),
    .deal .create, .deal (.testExit true)]

/-- A thread at the head of the outer loop can load the script and call its function. -/
theorem thread_calls (here : p.threads = before ++ ⟨.testExit, none⟩ :: after)
    (hexit : p.bExit = false) :
    Runs (ProcessStep env) p (callEvents Num)
      { p with bUpdate := false,
               threads := before ++ ⟨.call, some ⟨[], main env⟩⟩ :: after } := by
  obtain ⟨bExit, bUpdate, shared, threads⟩ := p
  dsimp only at here hexit
  subst here hexit
  have h₁ := Runs.start.next (@ProcessStep.deal Num _ env ⟨false, bUpdate, shared, _⟩ before after
    .testExit _ _ rfl (.testExit rfl rfl) nofun)
  have h₂ := h₁.next (.deal rfl (.create rfl) nofun)
  have h₃ := h₂.next (.deal rfl (@MainFrame.WorkerStep.read _ true rfl) nofun)
  have h₄ := h₃.next (.deal rfl (@MainFrame.WorkerStep.run _ true rfl) nofun)
  have h₅ := h₄.next (.deal rfl (.init rfl) nofun)
  -- The reset of `bUpdate` lets the guard pass.
  have h₆ := h₅.next (.deal rfl (.reset rfl) nofun)
  exact h₆.next (.deal rfl (.guard rfl rfl) nofun)

/-- A script can go through an execution while the other threads wait. -/
theorem thread_performs {acts acts' : List (Act (ScriptOp Num) ScriptOp.Res)}
    {script rest : Script Num} {w : Shared}
    (here : p.threads = before ++ ⟨.call, some ⟨acts, script⟩⟩ :: after)
    (hdoes : script.Does acts' rest) (hperforms : Performs Sem p.shared acts' w) :
    Runs (ProcessStep env) p (acts'.reverse.map .act)
      { p with shared := w,
               threads := before ++ ⟨.call, some ⟨acts ++ acts', rest⟩⟩ :: after } := by
  induction hdoes generalizing p acts with
  | nothing script =>
    obtain rfl : p.shared = w := hperforms
    rw [List.append_nil, ← here]
    exact .start
  | @call op k r acts' rest hdoes ih =>
    obtain ⟨w₁, hsem, hperforms⟩ := hperforms
    have hstep : ProcessStep env p (.act ⟨op, r⟩) _ := .act here hsem
    -- After its first operation the script is left with the rest of the execution.
    have hlater := (Runs.start.next hstep).trans (ih rfl hperforms)
    rw [List.append_assoc] at hlater
    rw [List.reverse_cons, List.map_append]
    exact hlater

/-- The steps of `deal` from the guard to its end. -/
def leaveEvents (Num : Type) [LuaInteger Num] : List (ProcessEvent Num) :=
  [.deal (.testExit false), .deal .close, .deal .clear, .deal (.guard false)]

/-- A thread at the guard leaves `deal` once both flags are set. -/
theorem thread_leaves (here : p.threads = before ++ ⟨.guard, none⟩ :: after)
    (hexit : p.bExit = true) (hupdate : p.bUpdate = true) :
    Runs (ProcessStep env) p (leaveEvents Num)
      { p with threads := before ++ ⟨.done, none⟩ :: after } := by
  obtain ⟨bExit, bUpdate, shared, threads⟩ := p
  dsimp only at here hexit hupdate
  subst here hexit hupdate
  have h₁ := Runs.start.next (@ProcessStep.deal Num _ env ⟨true, true, shared, _⟩ before after
    .guard _ _ rfl (.guard rfl rfl) nofun)
  have h₂ := h₁.next (.deal rfl (.clear rfl) nofun)
  have h₃ := h₂.next (.deal rfl (.close rfl) nofun)
  exact h₃.next (.deal rfl (.testExit rfl rfl) nofun)

/-! ## §5 Two threads -/

/-- A process in which `malloc` always finds room and every character is printable. -/
def roomyEnv : Env := ⟨Allocator.cleared, fun _ => true, fun _ => []⟩

theorem roomy_roomyEnv : roomyEnv.Roomy (2 ^ 15) := by
  intro k hk
  apply Allocator.isSome_cleared
  omega

/-- The calls of two scripts of which the second starts to store when the first has stored. -/
theorem two_frames :
    ∃ f₁ f₂ f₃ f₄ f₅ f₆, ∀ q : Option Queue,
      Performs Sem ⟨MainFrame.start, q⟩ [numberAct IntegerNumber 1] ⟨f₁, q⟩ ∧
      Performs Sem ⟨f₁, q⟩ [numberAct IntegerNumber 2] ⟨f₂, q⟩ ∧
      Performs Sem ⟨f₂, q⟩ (storeActs IntegerNumber 1) ⟨f₃, q⟩ ∧
      Performs Sem ⟨f₃, q⟩ (storeActs IntegerNumber 2) ⟨f₄, q⟩ ∧
      Performs Sem ⟨f₄, q⟩ [closeAct IntegerNumber 2] ⟨f₅, q⟩ ∧
      Performs Sem ⟨f₅, q⟩ [closeAct IntegerNumber 1] ⟨f₆, q⟩ := by
  -- The calls are evaluated one after the other.
  exact ⟨_, _, _, _, _, _, fun q => ⟨performs_frame 0 rfl rfl, performs_frame 0 rfl rfl,
    performs_frame 0 rfl <| performs_frame 0 rfl <| performs_frame 0 rfl <|
      performs_frame 0 rfl <| performs_frame 0 rfl <| performs_frame 0 rfl <|
      performs_frame 0 rfl <| performs_frame 0 rfl rfl,
    performs_frame 0 rfl <| performs_frame 0 rfl <| performs_frame 0 rfl <|
      performs_frame 0 rfl <| performs_frame 0 rfl <| performs_frame 0 rfl <|
      performs_frame 0 rfl <| performs_frame 0 rfl rfl,
    performs_frame 0 rfl rfl, performs_frame 0 rfl rfl⟩⟩

/-- Two threads in a call. -/
def calling (bExit bUpdate : Bool) (w : Shared) (r r' : Running IntegerNumber) :
    Process IntegerNumber :=
  ⟨bExit, bUpdate, w, [⟨.call, some r⟩, ⟨.call, some r'⟩]⟩

/-- Two threads, up to their first calls of the script. -/
theorem two_calls (env : Env) (queue : Option Queue) :
    Runs (ProcessStep env) (Process.start 2 queue)
      (callEvents IntegerNumber ++ callEvents IntegerNumber)
      (calling false false ⟨MainFrame.start, queue⟩ ⟨[], main env⟩ ⟨[], main env⟩) := by
  have hfirst : Runs (ProcessStep env) (Process.start 2 queue) (callEvents IntegerNumber) _ :=
    thread_calls [] rfl rfl
  exact hfirst.trans (thread_calls [_] rfl rfl)

section Calling

variable {b u : Bool} {w w' : Shared} {r : Running IntegerNumber}
  {acts acts' : List (Act (ScriptOp IntegerNumber) ScriptOp.Res)}
  {script rest : Script IntegerNumber}

theorem first_performs (hdoes : script.Does acts' rest) (hperforms : Performs Sem w acts' w') :
    Runs (ProcessStep env) (calling b u w ⟨acts, script⟩ r) (acts'.reverse.map .act)
      (calling b u w' ⟨acts ++ acts', rest⟩ r) :=
  thread_performs [] rfl hdoes hperforms

theorem second_performs (hdoes : script.Does acts' rest) (hperforms : Performs Sem w acts' w') :
    Runs (ProcessStep env) (calling b u w r ⟨acts, script⟩) (acts'.reverse.map .act)
      (calling b u w' r ⟨acts ++ acts', rest⟩) :=
  thread_performs [_] rfl hdoes hperforms

end Calling

/-- Both scripts have their numbers, and the first has stored its values. -/
def halfStored (b u : Bool) (f : MainFrame.Frame) (text rest : Script IntegerNumber) :
    Process IntegerNumber :=
  calling b u ⟨f, some ⟨0, []⟩⟩ ⟨numberAct _ 1 :: storeActs _ 1, text⟩ ⟨[numberAct _ 2], rest⟩

/-- Both scripts have sent their texts, the first one before the second. -/
def bothSent (b u : Bool) (f : MainFrame.Frame) (sent sent' : Script IntegerNumber) :
    Process IntegerNumber :=
  calling b u ⟨f, some ⟨0, [⟨3, Message.frame (record 1)⟩, ⟨3, Message.frame (record 2)⟩]⟩⟩
    ⟨numberAct _ 1 :: storeActs _ 1 ++ sendActs _ 0 (record 1), sent⟩
    ⟨numberAct _ 2 :: storeActs _ 2 ++ sendActs _ 0 (record 2), sent'⟩

/-- Both scripts have ended, and their threads are back at the guard. -/
def bothEnded (b u : Bool) (f : MainFrame.Frame) : Process IntegerNumber :=
  ⟨b, u, ⟨f, some ⟨0, []⟩⟩, [⟨.guard, none⟩, ⟨.guard, none⟩]⟩

/-- **Two requests at the same time**: both scripts get their numbers, the first stores its values
while the second waits, both send their texts, and each receives the text of the other. The flags
play no part while both are in a call. -/
theorem two_requests (b u : Bool) :
    ∃ (f₁ f₂ f₃ : MainFrame.Frame) (text rest sent sent' : Script IntegerNumber)
      (garbled garbled' : Bytes) (early middle late : List (ProcessEvent IntegerNumber)),
      Runs (ProcessStep roomyEnv) (Process.start 2 (some ⟨0, []⟩)) early
        (halfStored false false f₁ text rest) ∧
      Runs (ProcessStep roomyEnv) (halfStored b u f₁ text rest) middle
        (bothSent b u f₂ sent sent') ∧
      Runs (ProcessStep roomyEnv) (bothSent b u f₂ sent sent')
        (.ended (delivered roomyEnv (record 1) garbled (record 2)) ::
          .ended (delivered roomyEnv (record 2) garbled' (record 1)) :: late)
        (bothEnded b u f₃) := by
  have hint : IsInt 1 := ⟨by decide, by decide⟩
  have hint' : IsInt 2 := ⟨by decide, by decide⟩
  have hroom := room_of_lt (length_record (by decide) hint).2
  have hroom' := room_of_lt (length_record (by decide) hint').2
  obtain ⟨garbled, rest₁, text, sent, hnumber, hstore, hsend, hreceive⟩ :=
    main_executes IntegerNumber (by decide) hint roomy_roomyEnv 0
  obtain ⟨garbled', rest, text', sent', hnumber', hstore', hsend', hreceive'⟩ :=
    main_executes IntegerNumber (by decide) hint' roomy_roomyEnv 0
  obtain ⟨f₁, f₂, f₃, f₄, f₅, f₆, hframes⟩ := two_frames
  have hcalls := two_calls roomyEnv (some ⟨0, []⟩)
  obtain ⟨hframe₁, hframe₂, hframe₃, -⟩ := hframes (some ⟨0, []⟩)
  have hearly : Runs (ProcessStep roomyEnv) (Process.start 2 (some ⟨0, []⟩)) _
      (halfStored false false f₃ text rest) :=
    ((hcalls.trans (first_performs hnumber hframe₁)).trans (second_performs hnumber' hframe₂)).trans
      (first_performs hstore hframe₃)
  obtain ⟨-, -, -, hframe₄, -⟩ := hframes (some ⟨0, []⟩)
  have hmiddle : Runs (ProcessStep roomyEnv) (halfStored b u f₃ text rest) _
      (bothSent b u f₄ sent sent') :=
    ((second_performs hstore' hframe₄).trans
      (first_performs hsend (performs_sendActs f₄ 0 [] (record 1)))).trans
      (second_performs hsend' (performs_sendActs f₄ 0 _ (record 2)))
  -- The message of the first thread is in front, so the second thread receives it.
  obtain ⟨-, -, -, -, hframe₅, -⟩ := hframes (some ⟨0, [⟨3, Message.frame (record 2)⟩]⟩)
  obtain ⟨-, -, -, -, -, hframe₆⟩ := hframes (some ⟨0, []⟩)
  have hreceived' := performs_append (performs_receiveActs f₄ 0 3 _ hroom) hframe₅
  have hreceived := performs_append (performs_receiveActs f₅ 0 3 [] hroom') hframe₆
  have hreceives : Runs (ProcessStep roomyEnv) (bothSent b u f₄ sent sent') _ _ :=
    (second_performs (hreceive' 3 _ hroom) hreceived').trans
      (first_performs (hreceive 3 _ hroom') hreceived)
  have hended := (hreceives.next (@ProcessStep.ended _ _ _ _ [_] [] _ _ _ rfl (.call rfl))).next
    (@ProcessStep.ended _ _ _ _ [] [_] _ _ _ rfl (.call rfl))
  exact ⟨f₃, f₄, f₆, text, rest, sent, sent', garbled, garbled', _, _, _, hearly, hmiddle, hended⟩

end MyLua.Service
