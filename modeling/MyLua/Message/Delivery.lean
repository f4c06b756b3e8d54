import MyLua.Message.Calls

/-!
# Delivery Through a Message Queue (`libmsg`)

Any number of `libmsg.dequeue` and `libmsg.enqueue` calls run at the same time on the queue of one
key; their system calls interleave in any way. Both calls first look for the queue and create it if
there is none, but then they return 0 without sending or receiving anything.

## Main results

- `accounted_payloads`: what was sent is what was received or is still queued, for every run.
- `exactlyOnce_iff`: a status of 0 or more means that exactly one message was sent or received, if
  and only if no call had to create the queue.
- `create_sends_nothing`: a call that creates the queue loses its message.
-/

namespace MyLua.Message

open MyLua.Foundation

variable {strerror : Int → Bytes}

/-! ## §1 Runs of calls -/

abbrev Event := JobEvent Call Sys Sys.Res (Option (Int × Bytes))

abbrev State := Config (Option Queue) Call Sys Sys.Res (Option (Int × Bytes))

/-- A new call, or a system call of one that runs. -/
abbrev Step (strerror : Int → Bytes) : State → Event → State → Prop :=
  JobStep QueueSem (Call.prog strerror)

/-- The queue, or its absence, before the first call. -/
abbrev before (w₀ : Option Queue) : State := ⟨w₀, []⟩

/-- A message as `dequeue` sends it. -/
def Framed (m : Message) : Prop :=
  ∃ p, (0 : UInt8) ∉ p ∧ p.length + 1 ≤ MAX_MSG_LEN ∧ m.mtext = frame p

/-- A message as the users of `libmsg` see it: its type and its payload. -/
def payloadOf (m : Message) : Message := { m with mtext := m.mtext.drop sizeofLong }

theorem payloadOf_frame (mtype : Int) (p : Bytes) : payloadOf ⟨mtype, frame p⟩ = ⟨mtype, p⟩ := by
  rw [payloadOf, frame, List.drop_left' (length_toLE ..)]

/-- The payload of a `dequeue` that returned a status of 0 or more. -/
def sentBy : Event → Option Message
  | .act (.dequeue s type _) _ (.ret (some (ret, _))) =>
    if 0 ≤ ret then some ⟨type, cut s⟩ else none
  | _ => none

/-- What an `enqueue` returned with a status of 0 or more, with the type of the message. -/
def receivedBy : Event → Option Message
  | .act (.enqueue _ _) a (.ret (some (ret, text))) =>
    if 0 ≤ ret then (SysAct.removed a).map fun m => ⟨m.mtype, text⟩ else none
  | _ => none

/-- The event is a call creating the queue. -/
def Creates (e : Event) : Prop :=
  ∃ call msqid rest, e = .act call ⟨.msgget createFlag, .ok msqid⟩ rest

/-- The system call of an event, with what is left of its call. -/
inductive LastAct (strerror : Int → Bytes) : Call → SysAct → Program → Prop where
  | probed (c : Call) (r : Except Int Int) (op : Sys) (k : op.Res → Program) :
      LastAct strerror c ⟨.msgget 0, r⟩ (.call op k)
  | refused (c : Call) (errno : Int) (t : Bytes) :
      LastAct strerror c ⟨.msgget createFlag, .error errno⟩ (.ret (some (-1, t)))
  | created (c : Call) (msqid : Int) :
      LastAct strerror c ⟨.msgget createFlag, .ok msqid⟩ (.ret (some (0, [])))
  | notSent (s : Bytes) (type flag msqid errno : Int) (t : Bytes) :
      LastAct strerror (.dequeue s type flag)
        ⟨.msgsnd msqid type (frame (cut s)) (nowait flag), .error errno⟩ (.ret (some (-1, t)))
  | sent (s : Bytes) (type flag msqid : Int) (short : (cut s).length + 1 ≤ MAX_MSG_LEN) :
      LastAct strerror (.dequeue s type flag)
        ⟨.msgsnd msqid type (frame (cut s)) (nowait flag), .ok ()⟩ (.ret (some (0, cut s)))
  | notReceived (type flag msqid errno : Int) (t : Bytes) :
      LastAct strerror (.enqueue type flag)
        ⟨.msgrcv msqid sizeofMtext type (nowait flag ||| MSG_NOERROR), .error errno⟩
        (.ret (some (-1, t)))
  | received (type flag msqid mtype : Int) (mtext : Bytes) :
      LastAct strerror (.enqueue type flag)
        ⟨.msgrcv msqid sizeofMtext type (nowait flag ||| MSG_NOERROR), .ok (mtype, mtext)⟩
        (.ret (receivedMtext mtext))

theorem lastAct_of_does {c : Call} {acts : List SysAct} {a : SysAct} {rest : Program}
    (h : (c.prog strerror).Does (acts ++ [a]) rest) : LastAct strerror c a rest := by
  have hshape := shape_of_does h
  have hlast : (acts ++ [a]).getLast? = some a := by simp
  generalize acts ++ [a] = l at hshape hlast
  cases hshape <;> cases hlast
  · exact .probed _ _ _ _
  · exact .refused _ _ _
  · exact .created _ _
  · exact .notSent _ _ _ _ _ _
  · exact .sent _ _ _ _ ‹_›
  · exact .notReceived _ _ _ _ _
  · exact .received _ _ _ _ _

/-! ## §2 Accounting -/

theorem length_le_of_framed {m : Message} (h : Framed m) : m.mtext.length ≤ sizeofMtext := by
  obtain ⟨p, -, hp, hm⟩ := h
  have hmax : MAX_MSG_LEN = 65536 := rfl
  have hsize : sizeofMtext = 65552 := rfl
  have hlong : sizeofLong = 8 := rfl
  rw [hm, length_frame]
  omega

/-- A system call of a call leaves only framed messages, and receives one whole. -/
theorem framed_act {w w' : Option Queue} {a : SysAct} {call : Call} {acts : List SysAct}
    {rest : Program} (hdoes : (call.prog strerror).Does (acts ++ [a]) rest)
    (hw : ∀ m ∈ messages w, Framed m) (hsem : QueueSem w a.op a.res w') :
    (∀ m ∈ messages w', Framed m) ∧ ∀ m, a.removed = some m → Framed m := by
  have hnothing : ∀ m, (none : Option Message) = some m → Framed m := by
    intro m hm
    cases hm
  cases lastAct_of_does hdoes with
  | sent s type flag msqid short =>
    -- What is appended is framed, and the rest was there before.
    refine ⟨?_, hnothing⟩
    cases hsem with
    | sent pos =>
      intro m hm
      rcases List.mem_append.mp hm with hm | hm
      · exact hw m hm
      · rw [List.mem_singleton.mp hm]
        exact ⟨cut s, nul_notMem_cut s, short, rfl⟩
  | received type flag msqid mtype mtext =>
    dsimp only at hsem
    generalize hr : (Except.ok (mtype, mtext) : Except Int (Int × Bytes)) = r at hsem
    cases hsem with
    | @received q _ _ _ m left selected room =>
      have hm : Framed m := hw m (mem_of_select selected)
      -- `MSG_NOERROR` cuts what does not fit, and a framed message fits.
      have hwhole : m.mtext.take sizeofMtext = m.mtext :=
        List.take_of_length_le (length_le_of_framed hm)
      rw [hwhole] at hr
      cases hr
      refine ⟨fun x hx => hw x (mem_of_mem_rest selected hx), fun x hx => ?_⟩
      cases hx
      rw [hwhole]
      exact hm
    | notReceived => cases hr
  | probed c r op k =>
    -- Only the creation changes the queue, from none to an empty one.
    cases hsem with
    | created creat pos => exact ⟨List.forall_mem_nil _, hnothing⟩
    | _ => exact ⟨hw, hnothing⟩
  | created c msqid =>
    cases hsem with
    | created creat pos => exact ⟨List.forall_mem_nil _, hnothing⟩
    | _ => exact ⟨hw, hnothing⟩
  | refused c errno t => cases hsem <;> exact ⟨hw, hnothing⟩
  | notSent s type flag msqid errno t =>
    cases hsem
    exact ⟨hw, hnothing⟩
  | notReceived type flag msqid errno t =>
    cases hsem
    exact ⟨hw, hnothing⟩

variable {w₀ : Option Queue} {h : List Event} {s : State}

/-- Every message in the queue is framed, and so is every message that was received. -/
theorem framed_run (hrun : Runs (Step strerror) (before w₀) h s)
    (hinit : ∀ m ∈ messages w₀, Framed m) :
    (∀ m ∈ messages s.world, Framed m) ∧
      ∀ call a rest, JobEvent.act call a rest ∈ h → ∀ m, SysAct.removed a = some m → Framed m :=
  Runs.acts (I := fun w => ∀ m ∈ messages w, Framed m) hinit framed_act hrun

/-- The accounts of the queue, by the system calls. -/
theorem accounted_acts (hrun : Runs (Step strerror) (before w₀) h s)
    (hinit : ∀ m ∈ messages w₀, Framed m) :
    Accounted (messages w₀) (inOrder SysAct.appended (performed h))
      (inOrder SysAct.removed (performed h)) (messages s.world) := by
  induction hrun with
  | start => exact accounted_start _
  | @next h s s' e hr hs ih =>
    cases e with
    | start call =>
      cases hs
      exact ih
    | act call a rest =>
      obtain ⟨acts, hdoes, hsem⟩ := Runs.does_event hr hs
      simp only [performed, inOrder_cons]
      refine hsem.accounted ?_ ih
      intro msqid msgsz msgtyp flg hop m hm
      -- The only receive in the code asks for `sizeof(mtext_t)` bytes.
      have hsize : msgsz = sizeofMtext := by
        cases lastAct_of_does hdoes <;> cases hop <;> rfl
      rw [hsize]
      exact length_le_of_framed ((framed_run hr hinit).1 m hm)

/-- A successful `enqueue` returns the payload of the message it removed. -/
theorem received_eq {call : Call} {a : SysAct} {rest : Program}
    (hlast : LastAct strerror call a rest) (hframed : ∀ m, a.removed = some m → Framed m) :
    receivedBy (.act call a rest) = a.removed.map payloadOf := by
  cases hlast with
  | received type flag msqid mtype mtext =>
    -- The message was framed, so its checks pass and its payload is returned.
    obtain ⟨p, -, hp, hm⟩ := hframed ⟨mtype, mtext⟩ rfl
    dsimp only at hm
    subst hm
    have hnonneg : (0 : Int) ≤ p.length := by omega
    simp only [receivedMtext_frame hp, receivedBy, if_pos hnonneg, SysAct.removed, Option.map_some,
      payloadOf_frame]
  | probed c r op k => cases call <;> rfl
  | refused c errno t => cases call <;> rfl
  | created c msqid => cases call <;> rfl
  | _ => rfl

/-- A successful `dequeue` that did not create the queue appended its payload. -/
theorem sent_eq {call : Call} {a : SysAct} {rest : Program}
    (hlast : LastAct strerror call a rest) (hcreate : ¬ Creates (.act call a rest)) :
    sentBy (.act call a rest) = a.appended.map payloadOf := by
  cases hlast with
  | sent s type flag msqid short =>
    simp only [sentBy, SysAct.appended, Option.map_some, payloadOf_frame, Int.le_refl, if_true]
  | probed c r op k => cases call <;> rfl
  | refused c errno t => cases call <;> rfl
  -- The one way to return 0 without appending.
  | created c msqid => exact absurd ⟨call, msqid, _, rfl⟩ hcreate
  | _ => rfl

/-- What the events contribute is what their system calls do. -/
theorem inOrder_performed {f : Event → Option Message} {g : SysAct → Option Message}
    (hstart : ∀ call, f (.start call) = none) {h : List Event}
    (hact : ∀ call a rest, JobEvent.act call a rest ∈ h →
      f (.act call a rest) = (g a).map payloadOf) :
    inOrder f h = (inOrder g (performed h)).map payloadOf := by
  induction h with
  | nil => rfl
  | cons e h ih =>
    have hrest := ih fun call a rest he => hact call a rest (List.mem_cons_of_mem _ he)
    rw [inOrder_cons, hrest]
    cases e with
    | start call => simp [hstart, performed]
    | act call a rest =>
      rw [hact call a rest List.mem_cons_self, performed, inOrder_cons, List.map_append]
      cases g a <;> rfl

/-- The accounts of the queue, by the calls that returned a status of 0 or more. -/
theorem accounted_payloads (hrun : Runs (Step strerror) (before w₀) h s)
    (hinit : ∀ m ∈ messages w₀, Framed m) (hcreate : ∀ e ∈ h, ¬ Creates e) :
    Accounted ((messages w₀).map payloadOf) (inOrder sentBy h) (inOrder receivedBy h)
      ((messages s.world).map payloadOf) := by
  have hlast : ∀ call a rest, JobEvent.act call a rest ∈ h → LastAct strerror call a rest := by
    intro call a rest he
    obtain ⟨acts, hdoes⟩ := Runs.does_of_mem hrun he
    exact lastAct_of_does hdoes
  have hsent : inOrder sentBy h = (inOrder SysAct.appended (performed h)).map payloadOf :=
    inOrder_performed (fun _ => rfl) fun call a rest he =>
      sent_eq (hlast call a rest he) (hcreate _ he)
  have hreceived : inOrder receivedBy h =
      (inOrder SysAct.removed (performed h)).map payloadOf :=
    inOrder_performed (fun _ => rfl) fun call a rest he =>
      received_eq (hlast call a rest he) ((framed_run hrun hinit).2 call a rest he)
  rw [hsent, hreceived]
  exact (accounted_acts hrun hinit).map fun m => rfl

/-! ## §3 Exactly once -/

/-- A status of 0 or more means that exactly one message was sent or received; for each type, the
payloads that were in the queue and were sent, in this order, are those that were received and are
in the queue; and all in all they are the same. -/
structure ExactlyOnce (w₀ : Option Queue) (h : List Event) (s : State) : Prop where
  sends : ∀ j ∈ s.jobs, ∀ payload type flag ret t, j.call = .dequeue payload type flag →
    j.rest = .ret (some (ret, t)) → 0 ≤ ret →
      j.acts.filterMap SysAct.appended = [⟨type, frame (cut payload)⟩] ∧
        j.acts.filterMap SysAct.removed = []
  receives : ∀ j ∈ s.jobs, ∀ type flag ret t, j.call = .enqueue type flag →
    j.rest = .ret (some (ret, t)) → 0 ≤ ret →
      j.acts.filterMap SysAct.appended = [] ∧
        ∃ mtype, j.acts.filterMap SysAct.removed = [⟨mtype, frame t⟩]
  order : Accounted ((messages w₀).map payloadOf) (inOrder sentBy h) (inOrder receivedBy h)
    ((messages s.world).map payloadOf)
  total : ((messages w₀).map payloadOf ++ inOrder sentBy h).Perm
    (inOrder receivedBy h ++ (messages s.world).map payloadOf)

/-- A call that returns at once returns an error. -/
theorem ret_of_prog_eq {c : Call} {x : Option (Int × Bytes)}
    (h : c.prog strerror = .ret x) : ∃ t, x = some (-2, t) := by
  cases c with
  | dequeue s type flag =>
    by_cases hlong : (cut s).length + 1 > MAX_MSG_LEN
    · obtain ⟨t, ht⟩ := pushError_eq length_zeroMtext (-2)
        (sizeText "retmag" (wrapInt (cut s).length))
      rw [prog_dequeue_of_long hlong, ht] at h
      cases h
      exact ⟨t, rfl⟩
    · rw [prog_dequeue_of_short hlong] at h
      cases h
  | enqueue type flag => cases h

/-- A call that created the queue neither sent nor received. -/
theorem idle_of_created {c : Call} {acts : List SysAct} {rest : Program} {msqid : Int}
    (h : Shape strerror c acts rest) (hmem : ⟨.msgget createFlag, .ok msqid⟩ ∈ acts) :
    acts.filterMap SysAct.appended = [] ∧ acts.filterMap SysAct.removed = [] := by
  have hflag : createFlag ≠ 0#32 := by decide
  cases h with
  | created c errno msqid' => exact ⟨rfl, rfl⟩
  | _ => simp [hflag] at hmem

/-- The jobs of a run that created no queue. -/
theorem exactlyOnce_jobs (hrun : Runs (Step strerror) (before w₀) h s)
    (hinit : ∀ m ∈ messages w₀, Framed m) (hcreate : ∀ e ∈ h, ¬ Creates e) {j}
    (hj : j ∈ s.jobs) {ret : Int} {t : Bytes} (hrest : j.rest = .ret (some (ret, t)))
    (hret : 0 ≤ ret) :
    (∀ payload type flag, j.call = .dequeue payload type flag →
      j.acts.filterMap SysAct.appended = [⟨type, frame (cut payload)⟩] ∧
        j.acts.filterMap SysAct.removed = []) ∧
    ∀ type flag, j.call = .enqueue type flag →
      j.acts.filterMap SysAct.appended = [] ∧
        ∃ mtype, j.acts.filterMap SysAct.removed = [⟨mtype, frame t⟩] := by
  have hevent := Runs.event_of_act hrun j hj
  have hshape := shape_of_does (Runs.does hrun j hj)
  obtain ⟨call, acts, rest⟩ := j
  dsimp only at hrest hevent hshape ⊢
  subst hrest
  generalize hx : (Prog.ret (some (ret, t)) : Program) = rest at hshape
  cases hshape with
  | fresh =>
    -- A text that does not fit returns an error.
    obtain ⟨t', ht⟩ := ret_of_prog_eq hx.symm
    cases ht
    exact absurd hret (by decide)
  -- A call that only found the queue has not returned.
  | found => cases hx
  | refused c errno errno' t' =>
    cases hx
    exact absurd hret (by decide)
  | created c errno msqid =>
    obtain ⟨rest, he⟩ := hevent _ (List.mem_cons_of_mem _ List.mem_cons_self)
    exact absurd ⟨call, msqid, rest, rfl⟩ (hcreate _ he)
  | notSent s' type flag msqid errno t' =>
    cases hx
    exact absurd hret (by decide)
  | sent s' type flag msqid short =>
    refine ⟨?_, nofun⟩
    rintro payload type' flag' heq
    cases heq
    exact ⟨rfl, rfl⟩
  | notReceived type flag msqid errno t' =>
    cases hx
    exact absurd hret (by decide)
  | received type flag msqid mtype mtext =>
    -- The message removed was framed, and what is returned is its payload.
    refine ⟨nofun, ?_⟩
    rintro type' flag' heq
    obtain ⟨rest, he⟩ := hevent _ (List.mem_cons_of_mem _ List.mem_cons_self)
    obtain ⟨p, -, hp, hm⟩ := (framed_run hrun hinit).2 _ _ _ he ⟨mtype, mtext⟩ rfl
    dsimp only at hm
    subst hm
    rw [receivedMtext_frame hp] at hx
    cases hx
    exact ⟨rfl, mtype, rfl⟩

/-- In every run on a queue that holds only messages of `dequeue`, if it exists: every call with a
status of 0 or more sent or received exactly one message, in order and without loss, if and only
if no call created the queue. -/
theorem exactlyOnce_iff (hrun : Runs (Step strerror) (before w₀) h s)
    (hinit : ∀ m ∈ messages w₀, Framed m) :
    ExactlyOnce w₀ h s ↔ ∀ e ∈ h, ¬ Creates e := by
  constructor
  · rintro hexact e he ⟨call, msqid, rest, rfl⟩
    obtain ⟨acts, hdoes⟩ := Runs.does_of_mem hrun he
    -- A call that creates the queue returns 0 right after that.
    have hrest : rest = .ret (some (0, [])) := by
      cases lastAct_of_does hdoes with
      | created => rfl
    subst hrest
    obtain ⟨j, hj, hcall, hdone, hmem⟩ := Runs.job_of_event hrun he
    obtain ⟨hnone, hnone'⟩ := idle_of_created (shape_of_does (Runs.does hrun j hj)) hmem
    cases hc : j.call with
    | dequeue payload type flag =>
      -- Its status of 0 promises a message that it did not send.
      have hsent := (hexact.sends j hj payload type flag 0 [] hc hdone (Int.le_refl 0)).1
      rw [hnone] at hsent
      cases hsent
    | enqueue type flag =>
      -- Nor did it receive one.
      obtain ⟨mtype, hreceived⟩ := (hexact.receives j hj type flag 0 [] hc hdone (Int.le_refl 0)).2
      rw [hnone'] at hreceived
      cases hreceived
  · intro hcreate
    have haccounted := accounted_payloads hrun hinit hcreate
    refine ⟨?_, ?_, haccounted, haccounted.perm⟩
    · intro j hj payload type flag ret t hcall hrest hret
      exact (exactlyOnce_jobs hrun hinit hcreate hj hrest hret).1 payload type flag hcall
    · intro j hj type flag ret t hcall hrest hret
      exact (exactlyOnce_jobs hrun hinit hcreate hj hrest hret).2 type flag hcall

/-- On a queue that exists, one client sends a message and another one receives it. -/
theorem exactlyOnce_iff_one_message :
    ∃ h s, Runs (Step fun _ => []) (before (some ⟨0, []⟩)) h s ∧
      (∃ j ∈ s.jobs, j.call = .dequeue [120] 1 0 ∧ j.rest = .ret (some (0, [120]))) ∧
      (∃ j ∈ s.jobs, j.call = .enqueue 0 0 ∧ j.rest = .ret (some (1, [120]))) ∧
      ExactlyOnce (some ⟨0, []⟩) h s := by
  have hroom : ([120] : Bytes).length + 1 ≤ MAX_MSG_LEN := by decide
  have hstart : Runs (Step fun _ => []) (before (some ⟨0, []⟩)) [.start (.dequeue [120] 1 0)]
      ⟨some ⟨0, []⟩, [⟨.dequeue [120] 1 0, [], (Call.dequeue [120] 1 0).prog fun _ => []⟩]⟩ :=
    Runs.start.next (.start _)
  have hboth := hstart.next (.start (.enqueue 0 0))
  have hfound := hboth.next (.first (QueueSem.found (.inl (by decide))))
  have hfound' := hfound.next (.second (QueueSem.found (.inl (by decide))))
  have hsent := hfound'.next (.first (QueueSem.sent (by decide)))
  have htaken := hsent.next (.second (QueueSem.received rfl (.inr (by decide))))
  -- What was sent is the frame of the text, which fits into the buffer of the receiver.
  have hframe : ((sentMtext [120]).take (([120] : Bytes).length + sizeofLong)).take sizeofMtext =
      frame [120] := by
    rw [take_sentMtext hroom, List.take_of_length_le (by decide)]
  refine ⟨_, _, htaken, ⟨_, List.mem_cons_self, rfl, congrArg Prog.ret (push_sentMtext hroom 0)⟩,
    ⟨_, List.mem_cons_of_mem _ List.mem_cons_self, rfl, congrArg Prog.ret ?_⟩, ?_⟩
  · exact (congrArg receivedMtext hframe).trans (receivedMtext_frame hroom)
  · apply (exactlyOnce_iff htaken (by simp [messages])).mpr
    rintro e he ⟨call, msqid, rest, rfl⟩
    -- The only `msgget`s of the run do not create.
    have hflag : createFlag ≠ 0 := by decide
    simp only [List.mem_cons, JobEvent.act.injEq, Act.mk.injEq, Sys.msgget.injEq,
      List.not_mem_nil, false_and, and_false, or_false, false_or, reduceCtorEq] at he
    rcases he with he | he
    · exact absurd he.2.1.1 hflag
    · exact absurd he.2.1.1 hflag

/-- On a key without a queue the first `dequeue` returns 0 and sends nothing. -/
theorem create_sends_nothing :
    ¬ ∀ (strerror : Int → Bytes) (w₀ : Option Queue) (h : List Event) (s : State),
      Runs (Step strerror) (before w₀) h s → (∀ m ∈ messages w₀, Framed m) →
        ExactlyOnce w₀ h s := by
  intro hall
  have hstart : Runs (Step fun _ => []) (before none) [.start (.dequeue [120] 1 0)]
      ⟨none, [⟨.dequeue [120] 1 0, [], (Call.dequeue [120] 1 0).prog fun _ => []⟩]⟩ :=
    Runs.start.next (.start _)
  have hmissing := hstart.next (.alone (QueueSem.missing (by decide)))
  have hcreated := hmissing.next (.alone (QueueSem.created (by decide) (Int.le_refl 0)))
  have hexact := hall _ none _ _ hcreated (by simp [messages])
  obtain ⟨hsent, -⟩ := hexact.sends _ (List.mem_singleton_self _) [120] 1 0 0 [] rfl
    (congrArg Prog.ret push_zeroMtext) (Int.le_refl 0)
  cases hsent

end MyLua.Message
