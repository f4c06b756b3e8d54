import MyLua.Foundation.Runs

/-!
# Programs That Share an Object

Code that performs operations on an object it shares with others, such as system calls: a program
is a tree of operations, with one branch for each result. Any number of programs run at the same
time, and the operations of one fall between those of the others in any way; the object only sees
the operations.

## Contents

- `Prog`, `Prog.Does`: programs, and the operations a program has performed.
- `Performs`: what a list of operations does to the object.
- `Config`, `JobStep`: jobs that run programs on one object.
- `Runs.world`: what happens to the object is a run of the operations alone.
- `Runs.does`, `Runs.job_of_event`, `Runs.event_of_act`: jobs and events describe the same
  executions.
-/

namespace MyLua.Foundation

/-- A program that performs operations `Op`, whose results are `Res`, and returns an `α`. -/
inductive Prog (Op : Type) (Res : Op → Type) (α : Type) where
  | ret (a : α)
  | call (op : Op) (k : Res op → Prog Op Res α)

/-- An operation with its result. -/
structure Act (Op : Type) (Res : Op → Type) where
  op : Op
  res : Res op

variable {Op : Type} {Res : Op → Type} {α W Call : Type}

/-- The program performs the operations, in this order, and the other program is left of it. -/
inductive Prog.Does : Prog Op Res α → List (Act Op Res) → Prog Op Res α → Prop where
  | nothing (p : Prog Op Res α) : Does p [] p
  | call {op : Op} {k : Res op → Prog Op Res α} {r : Res op} {acts : List (Act Op Res)}
      {q : Prog Op Res α} : Does (k r) acts q → Does (.call op k) (⟨op, r⟩ :: acts) q

/-- One more operation. -/
theorem Prog.Does.snoc {p : Prog Op Res α} {acts : List (Act Op Res)} {op : Op}
    {k : Res op → Prog Op Res α} (h : p.Does acts (.call op k)) (r : Res op) :
    p.Does (acts ++ [⟨op, r⟩]) (k r) := by
  generalize hq : Prog.call op k = q at h
  induction h with
  | nothing p =>
    -- Nothing was performed yet: the operation is the first one.
    subst hq
    exact .call (.nothing _)
  | call _ ih => exact .call (ih hq)

/-- One execution after another. -/
theorem Prog.Does.trans {p q q' : Prog Op Res α} {acts acts' : List (Act Op Res)}
    (h : p.Does acts q) (h' : q.Does acts' q') : p.Does (acts ++ acts') q' := by
  induction h with
  | nothing p => exact h'
  | call _ ih => exact .call (ih h')

/-- The operations, one after the other, take the object from one state to the other. -/
def Performs (sem : W → (op : Op) → Res op → W → Prop) : W → List (Act Op Res) → W → Prop
  | w, [], w' => w = w'
  | w, a :: acts, w' => ∃ w₁, sem w a.op a.res w₁ ∧ Performs sem w₁ acts w'

/-- A program that has returned performs nothing. -/
theorem Prog.Does.of_ret {a : α} {acts : List (Act Op Res)} {q : Prog Op Res α}
    (h : (Prog.ret a : Prog Op Res α).Does acts q) : acts = [] ∧ q = .ret a := by
  cases h
  exact ⟨rfl, rfl⟩

/-! ## §1 Jobs -/

/-- A call that is being executed, with what it has performed and what is left. -/
structure Job (Call Op : Type) (Res : Op → Type) (α : Type) where
  call : Call
  acts : List (Act Op Res)
  rest : Prog Op Res α

/-- The object and the jobs, finished ones included. -/
structure Config (W Call Op : Type) (Res : Op → Type) (α : Type) where
  world : W
  jobs : List (Job Call Op Res α)

/-- A call begins, or one of them performs an operation and goes on with the rest. -/
inductive JobEvent (Call Op : Type) (Res : Op → Type) (α : Type) where
  | start (call : Call)
  | act (call : Call) (act : Act Op Res) (rest : Prog Op Res α)

/-- One operation of one job, or a new job. -/
inductive JobStep (sem : W → (op : Op) → Res op → W → Prop) (prog : Call → Prog Op Res α) :
    Config W Call Op Res α → JobEvent Call Op Res α → Config W Call Op Res α → Prop where
  | start {w : W} {jobs : List (Job Call Op Res α)} (call : Call) :
      JobStep sem prog ⟨w, jobs⟩ (.start call) ⟨w, jobs ++ [⟨call, [], prog call⟩]⟩
  | act {w w' : W} {before after : List (Job Call Op Res α)} {call : Call}
      {acts : List (Act Op Res)} {op : Op} {k : Res op → Prog Op Res α} {r : Res op}
      (performs : sem w op r w') :
      JobStep sem prog ⟨w, before ++ ⟨call, acts, .call op k⟩ :: after⟩ (.act call ⟨op, r⟩ (k r))
        ⟨w', before ++ ⟨call, acts ++ [⟨op, r⟩], k r⟩ :: after⟩

/-- The first job performs an operation. -/
theorem JobStep.first {sem : W → (op : Op) → Res op → W → Prop} {prog : Call → Prog Op Res α}
    {w w' : W} {call : Call} {acts : List (Act Op Res)} {op : Op} {k : Res op → Prog Op Res α}
    {r : Res op} {after : List (Job Call Op Res α)} (performs : sem w op r w') :
    JobStep sem prog ⟨w, ⟨call, acts, .call op k⟩ :: after⟩ (.act call ⟨op, r⟩ (k r))
      ⟨w', ⟨call, acts ++ [⟨op, r⟩], k r⟩ :: after⟩ :=
  @JobStep.act _ _ _ _ _ sem prog w w' [] after call acts op k r performs

/-- The second job performs an operation. -/
theorem JobStep.second {sem : W → (op : Op) → Res op → W → Prop} {prog : Call → Prog Op Res α}
    {w w' : W} {j : Job Call Op Res α} {call : Call} {acts : List (Act Op Res)} {op : Op}
    {k : Res op → Prog Op Res α} {r : Res op} {after : List (Job Call Op Res α)}
    (performs : sem w op r w') :
    JobStep sem prog ⟨w, j :: ⟨call, acts, .call op k⟩ :: after⟩ (.act call ⟨op, r⟩ (k r))
      ⟨w', j :: ⟨call, acts ++ [⟨op, r⟩], k r⟩ :: after⟩ :=
  @JobStep.act _ _ _ _ _ sem prog w w' [j] after call acts op k r performs

/-- A job that runs alone. -/
theorem JobStep.alone {sem : W → (op : Op) → Res op → W → Prop} {prog : Call → Prog Op Res α}
    {w w' : W} {call : Call} {acts : List (Act Op Res)} {op : Op} {k : Res op → Prog Op Res α}
    {r : Res op} (performs : sem w op r w') :
    JobStep sem prog ⟨w, [⟨call, acts, .call op k⟩]⟩ (.act call ⟨op, r⟩ (k r))
      ⟨w', [⟨call, acts ++ [⟨op, r⟩], k r⟩]⟩ :=
  .first performs

/-- The operations performed on the object, the newest first. -/
def performed : List (JobEvent Call Op Res α) → List (Act Op Res)
  | [] => []
  | .start _ :: h => performed h
  | .act _ a _ :: h => a :: performed h

variable {sem : W → (op : Op) → Res op → W → Prop} {prog : Call → Prog Op Res α} {w₀ : W}
  {h : List (JobEvent Call Op Res α)} {s : Config W Call Op Res α}

/-! ## §2 Runs -/

/-- The object goes through a run of the operations alone. -/
theorem Runs.world (hrun : Runs (JobStep sem prog) ⟨w₀, []⟩ h s) :
    Runs (fun w a w' => sem w a.op a.res w') w₀ (performed h) s.world := by
  induction hrun with
  | start => exact .start
  | next _ hs ih =>
    cases hs with
    | start call => exact ih
    | act performs => exact ih.next performs

/-- What is left of a job is what its program leaves after what the job has performed. -/
theorem Runs.does (hrun : Runs (JobStep sem prog) ⟨w₀, []⟩ h s) :
    ∀ j ∈ s.jobs, (prog j.call).Does j.acts j.rest := by
  induction hrun with
  | start => simp
  | next _ hs ih =>
    cases hs with
    | start call =>
      intro j hj
      rcases List.mem_append.mp hj with hj | hj
      · exact ih j hj
      · rw [List.mem_singleton] at hj
        subst hj
        exact .nothing _
    | @act w w' before after call acts op k r performs =>
      -- The job that performed an operation has one more, the others are as before.
      intro j hj
      rcases List.mem_append.mp hj with hj | hj
      · exact ih j (List.mem_append_left _ hj)
      rcases List.mem_cons.mp hj with rfl | hj
      · have hold := ih ⟨call, acts, .call op k⟩ (List.mem_append_right _ List.mem_cons_self)
        exact Prog.Does.snoc hold r
      · exact ih j (List.mem_append_right _ (List.mem_cons_of_mem _ hj))

/-- The operation of an event is the last one its job has performed. -/
theorem Runs.does_event (hrun : Runs (JobStep sem prog) ⟨w₀, []⟩ h s)
    {s' : Config W Call Op Res α} {call : Call} {a : Act Op Res} {rest : Prog Op Res α}
    (hs : JobStep sem prog s (.act call a rest) s') :
    ∃ acts, (prog call).Does (acts ++ [a]) rest ∧ sem s.world a.op a.res s'.world := by
  cases hs with
  | @act w w' before after call acts op k r performs =>
    have hold := Runs.does hrun ⟨call, acts, .call op k⟩
      (List.mem_append_right _ List.mem_cons_self)
    exact ⟨acts, Prog.Does.snoc hold r, performs⟩

theorem Runs.does_of_mem (hrun : Runs (JobStep sem prog) ⟨w₀, []⟩ h s) {call : Call}
    {a : Act Op Res} {rest : Prog Op Res α} (he : .act call a rest ∈ h) :
    ∃ acts, (prog call).Does (acts ++ [a]) rest := by
  induction hrun with
  | start => cases he
  | next hr hs ih =>
    rcases List.mem_cons.mp he with rfl | he
    · obtain ⟨acts, hdoes, -⟩ := Runs.does_event hr hs
      exact ⟨acts, hdoes⟩
    · exact ih he

/-- An invariant of the object that every operation of a job keeps, and what each of these
operations satisfies then. -/
theorem Runs.acts {I : W → Prop} {P : Act Op Res → Prop} (hI : I w₀)
    (hsem : ∀ {w a w' call acts rest}, (prog call).Does (acts ++ [a]) rest → I w →
      sem w a.op a.res w' → I w' ∧ P a)
    (hrun : Runs (JobStep sem prog) ⟨w₀, []⟩ h s) :
    I s.world ∧ ∀ call a rest, JobEvent.act call a rest ∈ h → P a := by
  induction hrun with
  | start => exact ⟨hI, fun _ _ _ he => by cases he⟩
  | @next h s s' e hr hs ih =>
    -- The invariant is kept by every operation, and each event was one of them.
    obtain ⟨hworld, hevents⟩ := ih
    cases e with
    | start call =>
      refine ⟨?_, fun call' a rest he => ?_⟩
      · cases hs
        exact hworld
      · rcases List.mem_cons.mp he with he | he
        · cases he
        · exact hevents call' a rest he
    | act call a rest =>
      obtain ⟨acts, hdoes, hperforms⟩ := Runs.does_event hr hs
      obtain ⟨hworld', hact⟩ := hsem hdoes hworld hperforms
      refine ⟨hworld', fun call' a' rest' he => ?_⟩
      rcases List.mem_cons.mp he with he | he
      · obtain ⟨rfl, rfl, rfl⟩ := JobEvent.act.inj he
        exact hact
      · exact hevents call' a' rest' he

/-- Everything a job has performed was an event. -/
theorem Runs.event_of_act (hrun : Runs (JobStep sem prog) ⟨w₀, []⟩ h s) :
    ∀ j ∈ s.jobs, ∀ a ∈ j.acts, ∃ rest, JobEvent.act j.call a rest ∈ h := by
  induction hrun with
  | start => simp
  | @next h s s' e _ hs ih =>
    have hold : ∀ j ∈ s.jobs, ∀ a ∈ j.acts, ∃ rest, JobEvent.act j.call a rest ∈ e :: h :=
      fun j hj a ha => (ih j hj a ha).imp fun _ hmem => List.mem_cons_of_mem _ hmem
    cases hs with
    | start call =>
      intro j hj a ha
      rcases List.mem_append.mp hj with hj | hj
      · exact hold j hj a ha
      · rw [List.mem_singleton] at hj
        subst hj
        cases ha
    | @act w w' before after call acts op k r performs =>
      -- The new operation is the new event; every other one was an event before.
      intro j hj a ha
      rcases List.mem_append.mp hj with hj | hj
      · exact hold j (List.mem_append_left _ hj) a ha
      rcases List.mem_cons.mp hj with rfl | hj
      · rcases List.mem_append.mp ha with ha | ha
        · exact hold ⟨call, acts, .call op k⟩ (List.mem_append_right _ List.mem_cons_self) a ha
        · exact ⟨k r, by rw [List.mem_singleton.mp ha]; exact List.mem_cons_self⟩
      · exact hold j (List.mem_append_right _ (List.mem_cons_of_mem _ hj)) a ha

/-- A job that returned stays, with what it performed last. -/
theorem Runs.job_of_event (hrun : Runs (JobStep sem prog) ⟨w₀, []⟩ h s) {call : Call}
    {a : Act Op Res} {x : α} (he : JobEvent.act call a (.ret x) ∈ h) :
    ∃ j ∈ s.jobs, j.call = call ∧ j.rest = .ret x ∧ a ∈ j.acts := by
  induction hrun with
  | start => cases he
  | next _ hs ih =>
    cases hs with
    | start call =>
      rcases List.mem_cons.mp he with he | he
      · cases he
      · obtain ⟨j, hj, hjob⟩ := ih he
        exact ⟨j, List.mem_append_left _ hj, hjob⟩
    | @act w w' before after call' acts op k r performs =>
      rcases List.mem_cons.mp he with he | he
      · -- The event is the newest one: its job is the one that just returned.
        obtain ⟨rfl, rfl, hrest⟩ := JobEvent.act.inj he
        exact ⟨⟨call, acts ++ [⟨op, r⟩], k r⟩, List.mem_append_right _ List.mem_cons_self, rfl,
          hrest.symm, by simp⟩
      · obtain ⟨j, hj, hcall, hrest, hact⟩ := ih he
        rcases List.mem_append.mp hj with hj | hj
        · exact ⟨j, List.mem_append_left _ hj, hcall, hrest, hact⟩
        rcases List.mem_cons.mp hj with rfl | hj
        · -- A job that has returned performs nothing more.
          cases hrest
        · exact ⟨j, List.mem_append_right _ (List.mem_cons_of_mem _ hj), hcall, hrest, hact⟩

end MyLua.Foundation
