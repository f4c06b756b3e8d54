import MyLua.Message.Delivery

/-!
# Creation of the Queue (`msgget` in `libmsg`)

Both calls look for the queue with `msgget(key, 0)` and, if there is none, create it with
`IPC_CREAT | IPC_EXCL`. Between the two system calls another client may create it; then the second
one fails with `EEXIST`, and the call returns -1 although the queue is there.

## Main results

- `world_eq_none_iff`: the queue exists as soon as some call has tried to create it.
- `exists_refused_iff`: a call is refused exactly if a second one tries to create the queue.
- `oneQueue_iff`: no call fails for that reason, and all get the same queue, if and only if at most
  one call tries to create it.
-/

namespace MyLua.Message

open MyLua.Foundation

variable {strerror : Int → Bytes}

/-! ## §1 First users -/

/-- `msgget` fails only because of the queue: it is missing, or it is there already. -/
def Granted : Event → Prop
  | .act _ ⟨.msgget _, .error errno⟩ _ => errno = ENOENT ∨ errno = EEXIST
  | _ => True

/-- The event is the second `msgget` of a call. -/
def isAttempt : Event → Bool
  | .act _ ⟨.msgget flg, _⟩ _ => flg = createFlag
  | _ => false

/-- How often a call tried to create the queue. -/
def attempts (h : List Event) : Nat := h.countP isAttempt

/-- A system call that moves a message failed. -/
def NotTransferred : SysAct → Prop
  | ⟨.msgsnd _ _ _ _, .error _⟩ => True
  | ⟨.msgrcv _ _ _ _, .error _⟩ => True
  | _ => False

/-- Every call that has returned got the identifier of the one queue, unless it was refused before
it made a system call; and a call that returned -1 failed in `msgsnd` or `msgrcv`. -/
structure OneQueue (s : State) : Prop where
  ids : ∀ j ∈ s.jobs, ∀ x, j.rest = .ret x →
    j.acts = [] ∨ ∃ q flg, s.world = some q ∧ ⟨.msgget flg, .ok q.msqid⟩ ∈ j.acts
  status : ∀ j ∈ s.jobs, ∀ t, j.rest = .ret (some (-1, t)) → ∃ a ∈ j.acts, NotTransferred a

/-! ## §2 Attempts -/

/-- An attempt on a queue that exists fails. -/
theorem attempt_some {q : Queue} {r : Except Int Int} {w' : Option Queue}
    (hsem : QueueSem (some q) (.msgget createFlag) r w') : ∃ errno, r = .error errno := by
  cases hsem with
  | found open' => exact absurd open' (by decide)
  | taken creat excl => exact ⟨_, rfl⟩
  | denied ne₁ ne₂ => exact ⟨_, rfl⟩

/-- The first attempt creates the queue. -/
theorem attempt_none {call : Call} {r : Except Int Int} {w' : Option Queue} {rest : Program}
    (hsem : QueueSem none (.msgget createFlag) r w')
    (hgranted : Granted (.act call ⟨.msgget createFlag, r⟩ rest)) :
    ∃ q, w' = some q ∧ r = .ok q.msqid := by
  cases hsem with
  | missing open' => exact absurd open' (by decide)
  | created creat pos => exact ⟨_, rfl, rfl⟩
  | denied ne₁ ne₂ => exact (hgranted.elim ne₁ ne₂).elim

/-- No other system call of a call creates the queue. -/
theorem LastAct.none_of_not_attempt {call : Call} {a : SysAct} {rest : Program}
    {w' : Option Queue} (hlast : LastAct strerror call a rest)
    (hsem : QueueSem none a.op a.res w') (hnot : isAttempt (.act call a rest) = false) :
    w' = none := by
  cases hlast with
  | probed c r op k =>
    cases hsem with
    | created creat pos => exact absurd rfl creat
    | _ => rfl
  | refused c errno t => simp [isAttempt] at hnot
  | created c msqid => simp [isAttempt] at hnot
  | sent => cases hsem
  | received => cases hsem
  | notSent =>
    cases hsem
    rfl
  | notReceived =>
    cases hsem
    rfl

variable {h : List Event} {s : State}

theorem attempts_cons (e : Event) :
    attempts (e :: h) = attempts h + if isAttempt e then 1 else 0 := List.countP_cons ..

/-- An event that is an attempt performs the second `msgget`. -/
theorem LastAct.of_isAttempt {call : Call} {a : SysAct} {rest : Program}
    (hlast : LastAct strerror call a rest) (hattempt : isAttempt (.act call a rest) = true) :
    ∃ r, a = ⟨.msgget createFlag, r⟩ := by
  cases hlast with
  | probed c r op k =>
    have hflag : (0 : BitVec 32) = createFlag := of_decide_eq_true hattempt
    exact absurd hflag (by decide)
  | refused c errno t => exact ⟨_, rfl⟩
  | created c msqid => exact ⟨_, rfl⟩
  | _ => simp [isAttempt] at hattempt

/-- The queue exists as soon as some call has tried to create it. -/
theorem world_eq_none_iff (hrun : Runs (Step strerror) (before none) h s)
    (hgranted : ∀ e ∈ h, Granted e) : s.world = none ↔ attempts h = 0 := by
  induction hrun with
  | start => exact iff_of_true rfl rfl
  | @next h s s' e hr hs ih =>
    have hworld := ih fun e' he' => hgranted e' (List.mem_cons_of_mem _ he')
    have hnow := hgranted e List.mem_cons_self
    rw [attempts_cons]
    cases e with
    | start call =>
      cases hs
      exact hworld
    | act call a rest =>
      obtain ⟨acts, hdoes, hsem⟩ := Runs.does_event hr hs
      have hlast := lastAct_of_does hdoes
      cases hw : s.world with
      | none =>
        rw [hw] at hsem
        rw [hworld.mp hw, Nat.zero_add]
        cases hattempt : isAttempt (.act call a rest) with
        | true =>
          obtain ⟨r, rfl⟩ := hlast.of_isAttempt hattempt
          obtain ⟨q, hq, -⟩ := attempt_none hsem hnow
          simp [hq]
        | false => simp [hlast.none_of_not_attempt hsem hattempt]
      | some q =>
        -- A queue that exists stays.
        rw [hw] at hsem
        obtain ⟨q', hq', -⟩ := hsem.keeps
        have hne : attempts h ≠ 0 := fun hzero => by simp [hworld.mpr hzero] at hw
        simp [hq', hne]

/-- A call is refused exactly if it is not the first one that tries to create the queue. -/
theorem exists_refused_iff (hrun : Runs (Step strerror) (before none) h s)
    (hgranted : ∀ e ∈ h, Granted e) :
    (∃ call errno rest, JobEvent.act call ⟨.msgget createFlag, .error errno⟩ rest ∈ h) ↔
      2 ≤ attempts h := by
  induction hrun with
  | start => simp [attempts]
  | @next h s s' e hr hs ih =>
    have hbefore : ∀ e' ∈ h, Granted e' := fun e' he' => hgranted e' (List.mem_cons_of_mem _ he')
    have hnow := hgranted e List.mem_cons_self
    have hworld := world_eq_none_iff hr hbefore
    have ih := ih hbefore
    rw [attempts_cons]
    constructor
    · rintro ⟨call, errno, rest, he⟩
      rcases List.mem_cons.mp he with rfl | he
      · -- The refusal shows that the queue existed, so somebody had tried before.
        obtain ⟨acts, hdoes, hsem⟩ := Runs.does_event hr hs
        have hne : s.world ≠ none := by
          intro hw
          rw [hw] at hsem
          obtain ⟨q, -, hr⟩ := attempt_none hsem hnow
          cases hr
        have hpos : attempts h ≠ 0 := fun hzero => hne (hworld.mpr hzero)
        simp only [isAttempt, decide_true, if_true]
        omega
      · have hle := ih.mp ⟨call, errno, rest, he⟩
        omega
    · intro hle
      by_cases hold : 2 ≤ attempts h
      · obtain ⟨call, errno, rest, he⟩ := ih.mpr hold
        exact ⟨call, errno, rest, List.mem_cons_of_mem _ he⟩
      · -- This event is the second attempt, and the first one made the queue.
        cases hattempt : isAttempt e with
        | false =>
          rw [hattempt] at hle
          simp at hle
          omega
        | true =>
          rw [hattempt] at hle
          simp only [if_true] at hle
          cases e with
          | start call => cases hattempt
          | act call a rest =>
            obtain ⟨acts, hdoes, hsem⟩ := Runs.does_event hr hs
            obtain ⟨r, rfl⟩ := (lastAct_of_does hdoes).of_isAttempt hattempt
            cases hw : s.world with
            | none => have := hworld.mp hw; omega
            | some q =>
              rw [hw] at hsem
              obtain ⟨errno, rfl⟩ := attempt_some hsem
              exact ⟨call, errno, rest, List.mem_cons_self⟩

/-! ## §3 Identifiers -/

/-- Every identifier that `msgget` returned is that of the queue. -/
theorem msqid_of_ok {w₀ : Option Queue} (hrun : Runs (Step strerror) (before w₀) h s)
    {call : Call} {flg : BitVec 32} {msqid : Int} {rest : Program}
    (he : JobEvent.act call ⟨.msgget flg, .ok msqid⟩ rest ∈ h) :
    ∃ q, s.world = some q ∧ q.msqid = msqid := by
  induction hrun with
  | start => cases he
  | @next h s s' e hr hs ih =>
    rcases List.mem_cons.mp he with rfl | he
    · obtain ⟨acts, -, hsem⟩ := Runs.does_event hr hs
      exact hsem.msgget_ok
    · obtain ⟨q, hq, hid⟩ := ih he
      cases e with
      | start call =>
        cases hs
        exact ⟨q, hq, hid⟩
      | act call' a rest' =>
        obtain ⟨acts, -, hsem⟩ := Runs.does_event hr hs
        rw [hq] at hsem
        obtain ⟨q', hq', hid'⟩ := hsem.keeps
        exact ⟨q', hq', hid'.trans hid⟩

/-! ## §4 One queue for all -/

/-- An error keeps its status. -/
theorem ret_of_pushError {ret ret' : Int} {m text t : Bytes}
    (h : pushError ret m text = some (ret', t)) : ret' = ret := by
  simp only [pushError, Option.bind_eq_bind, Option.bind_eq_some_iff, push] at h
  obtain ⟨content, -, h⟩ := h
  split at h
  · exact (Prod.mk.inj (Option.some.inj h)).1.symm
  · cases h

/-- A message that was received is never answered with -1. -/
theorem receivedMtext_ne (mtext t : Bytes) : receivedMtext mtext ≠ some (-1, t) := by
  intro h
  simp only [receivedMtext] at h
  split at h
  · exact absurd (ret_of_pushError h) (by decide)
  · rename_i hok
    rw [not_or] at hok
    have hlen : sizeofLong ≤ mtext.length := Nat.not_lt.mp hok.1
    simp only [push] at h
    split at h
    · have hret := (Prod.mk.inj (Option.some.inj h)).1
      omega
    · cases h

/-- A call that was refused came to no other system call. -/
theorem transferred_of_refused {c : Call} {acts : List SysAct} {rest : Program} {errno : Int}
    (h : Shape strerror c acts rest) (hmem : ⟨.msgget createFlag, .error errno⟩ ∈ acts) :
    ∀ a ∈ acts, ¬ NotTransferred a := by
  have hflag : createFlag ≠ 0#32 := by decide
  cases h with
  | refused c errno₁ errno₂ t => simp [NotTransferred]
  | _ => simp [hflag] at hmem

/-- What a call that has returned got and answers, if it was not refused. -/
theorem oneQueue_job (hrun : Runs (Step strerror) (before none) h s)
    (hnone : ¬ ∃ call errno rest, JobEvent.act call ⟨.msgget createFlag, .error errno⟩ rest ∈ h)
    {j} (hj : j ∈ s.jobs) {x : Option (Int × Bytes)} (hrest : j.rest = .ret x) :
    (j.acts = [] ∨ ∃ q flg, s.world = some q ∧ ⟨.msgget flg, .ok q.msqid⟩ ∈ j.acts) ∧
      ∀ t, x = some (-1, t) → ∃ a ∈ j.acts, NotTransferred a := by
  have hevent := Runs.event_of_act hrun j hj
  have hshape := shape_of_does (Runs.does hrun j hj)
  obtain ⟨call, acts, rest⟩ := j
  dsimp only at hrest hevent hshape ⊢
  subst hrest
  -- The identifier a call got is that of the queue, whoever created it.
  have hid : ∀ flg msqid, (⟨.msgget flg, .ok msqid⟩ : SysAct) ∈ acts →
      acts = [] ∨ ∃ q flg, s.world = some q ∧ ⟨.msgget flg, .ok q.msqid⟩ ∈ acts := by
    intro flg msqid hmem
    obtain ⟨rest, he⟩ := hevent _ hmem
    obtain ⟨q, hq, rfl⟩ := msqid_of_ok hrun he
    exact .inr ⟨q, flg, hq, hmem⟩
  generalize hx : (Prog.ret x : Program) = rest at hshape
  cases hshape with
  | fresh =>
    obtain ⟨t', ht⟩ := ret_of_prog_eq hx.symm
    refine ⟨.inl rfl, fun t ht' => ?_⟩
    rw [ht] at ht'
    cases ht'
  | found => cases hx
  | refused c errno errno' t' =>
    obtain ⟨rest, he⟩ := hevent _ (List.mem_cons_of_mem _ List.mem_cons_self)
    exact absurd ⟨call, errno', rest, he⟩ hnone
  | created c errno msqid =>
    cases hx
    refine ⟨hid createFlag msqid (by simp), fun t ht => ?_⟩
    cases ht
  | notSent s' type flag msqid errno t' =>
    refine ⟨hid 0 msqid (by simp), fun t _ => ?_⟩
    exact ⟨_, List.mem_cons_of_mem _ List.mem_cons_self, trivial⟩
  | sent s' type flag msqid short =>
    cases hx
    refine ⟨hid 0 msqid (by simp), fun t ht => ?_⟩
    cases ht
  | notReceived type flag msqid errno t' =>
    refine ⟨hid 0 msqid (by simp), fun t _ => ?_⟩
    exact ⟨_, List.mem_cons_of_mem _ List.mem_cons_self, trivial⟩
  | received type flag msqid mtype mtext =>
    cases hx
    refine ⟨hid 0 msqid (by simp), fun t ht => ?_⟩
    exact absurd ht (receivedMtext_ne mtext t)

/-- A refused call has returned -1 without a failure in `msgsnd` or `msgrcv`. -/
theorem not_oneQueue_of_refused {w₀ : Option Queue} (hrun : Runs (Step strerror) (before w₀) h s)
    {call : Call} {errno : Int} {rest : Program}
    (he : JobEvent.act call ⟨.msgget createFlag, .error errno⟩ rest ∈ h) : ¬ OneQueue s := by
  intro hone
  obtain ⟨acts, hdoes⟩ := Runs.does_of_mem hrun he
  obtain ⟨t, rfl⟩ : ∃ t, rest = .ret (some (-1, t)) := by
    cases lastAct_of_does hdoes with
    | refused c errno t => exact ⟨t, rfl⟩
  obtain ⟨j, hj, -, hdone, hmem⟩ := Runs.job_of_event hrun he
  obtain ⟨a, ha, hfailed⟩ := hone.status j hj t hdone
  exact transferred_of_refused (shape_of_does (Runs.does hrun j hj)) hmem a ha hfailed

/-- In every run on a key without a queue, in which `msgget` fails only because of the queue: all
calls get the one queue, and none returns -1 because another client created it, if and only if at
most one call tries to create it. -/
theorem oneQueue_iff (hrun : Runs (Step strerror) (before none) h s)
    (hgranted : ∀ e ∈ h, Granted e) : OneQueue s ↔ attempts h ≤ 1 := by
  have hrefused := exists_refused_iff hrun hgranted
  constructor
  · intro hone
    by_contra hmany
    obtain ⟨call, errno, rest, he⟩ := hrefused.mpr (by omega)
    exact not_oneQueue_of_refused hrun he hone
  · intro hfew
    have hnone := hrefused.not.mpr (by omega)
    exact ⟨fun j hj x hx => (oneQueue_job hrun hnone hj hx).1,
      fun j hj t hx => (oneQueue_job hrun hnone hj hx).2 t rfl⟩

/-- Two clients: one creates the queue, and the other one finds it and sends a message to it. -/
theorem oneQueue_two_clients :
    ∃ h s, Runs (Step fun _ => []) (before none) h s ∧ s.jobs.length = 2 ∧ attempts h = 1 ∧
      OneQueue s := by
  have hstart : Runs (Step fun _ => []) (before none) [.start (.enqueue 0 0)]
      ⟨none, [⟨.enqueue 0 0, [], (Call.enqueue 0 0).prog fun _ => []⟩]⟩ :=
    Runs.start.next (.start _)
  have hmissing := hstart.next (.alone (QueueSem.missing (by decide)))
  -- The second client starts before the queue is there, but looks for it afterwards.
  have hboth := hmissing.next (.start (.dequeue [120] 1 0))
  have hcreated := hboth.next (.first (QueueSem.created (by decide) (Int.le_refl 0)))
  have hfound := hcreated.next (.second (QueueSem.found (.inl (by decide))))
  have hsent := hfound.next (.second (QueueSem.sent (by decide)))
  refine ⟨_, _, hsent, rfl, by decide, (oneQueue_iff hsent ?_).mpr (by decide)⟩
  simp [Granted]

/-- Two clients find no queue; the first one creates it, and the second one is refused. -/
theorem createdBetween_fails :
    ¬ ∀ (strerror : Int → Bytes) (h : List Event) (s : State),
      Runs (Step strerror) (before none) h s → (∀ e ∈ h, Granted e) → OneQueue s := by
  intro hall
  have hstart : Runs (Step fun _ => []) (before none) [.start (.dequeue [120] 1 0)]
      ⟨none, [⟨.dequeue [120] 1 0, [], (Call.dequeue [120] 1 0).prog fun _ => []⟩]⟩ :=
    Runs.start.next (.start _)
  have hboth := hstart.next (.start (.dequeue [120] 1 0))
  -- Both look for the queue before either creates it.
  have hfirst := hboth.next (.first (QueueSem.missing (by decide)))
  have hsecond := hfirst.next (.second (QueueSem.missing (by decide)))
  have hcreated := hsecond.next (.first (QueueSem.created (by decide) (Int.le_refl 0)))
  have hrefused := hcreated.next (.second (QueueSem.taken (by decide) (by decide)))
  have hone := hall _ _ _ hrefused (by simp [Granted])
  exact not_oneQueue_of_refused hrefused List.mem_cons_self hone

end MyLua.Message
