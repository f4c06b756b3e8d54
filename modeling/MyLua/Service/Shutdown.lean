import Mathlib.Algebra.BigOperators.Group.List.Basic
import Mathlib.Algebra.Order.BigOperators.Group.List
import MyLua.Service.Safety

/-!
# The End of the Process

A script performs 14 operations at most, whatever they return. So once `SIGTERM` is handled while no
thread is loading a script, every thread leaves `deal` after a bounded number of steps, whatever the
other threads do; and no thread is ever stuck before.

## Main results

- `main_within`: the length of the script.
- `shutdown_step`: what a step costs once both flags are set.
- `shutdown`: the process ends.
-/

namespace MyLua.Service

open MyLua.Foundation
open MyLua.MainFrame (Pc Signal WorkerEvent WorkerStep)

variable {Num : Type} [LuaInteger Num] {env : Env} {workers : Nat} {queue : Option Queue}
  {sent : List Message}

/-! ## §1 The length of the script -/

section Length

variable {strerror : Int → Bytes}

theorem create_within (strerror : Int → Bytes) : (Message.create strerror).Within 1 := by
  intro r
  cases r <;> exact Prog.within_ret _ _

theorem enqueue_within (type flag : Int) : (Message.enqueue strerror type flag).Within 2 := by
  intro r
  cases r with
  | error errno => exact create_within strerror
  | ok msgid =>
    intro r
    cases r <;> exact Prog.within_ret _ _

theorem dequeue_within (s : Bytes) (type flag : Int) :
    (Message.dequeue strerror s type flag).Within 2 := by
  rw [Message.dequeue]
  split
  · exact Prog.within_ret _ _
  · -- A text that does not fit returns at once; otherwise there are two system calls at most.
    intro r
    cases r with
    | error errno => exact create_within strerror
    | ok msgid =>
      intro r
      cases r <;> exact Prog.within_ret _ _

theorem deliver_within (seqno : LuaValue Num) (k : Bytes) : (deliver env seqno k).Within 5 := by
  rw [deliver]
  split
  · -- An access outside an object ends the script here.
    exact Prog.within_ret _ _
  · -- Two system calls, two more, and the closing of the number.
    apply Prog.Within.bind (m := 2) (n := 3) (dequeue_within k 3 1).lift
    intro x
    split
    · exact Prog.within_ret _ _
    · apply Prog.Within.bind (m := 2) (n := 1) (enqueue_within 0 1).lift
      intro y
      split
      · exact Prog.within_ret _ _
      · exact fun _ => Prog.within_ret _ _

/-- `main` performs 14 operations at most. -/
theorem main_within (env : Env) : (main env : Script Num).Within 14 := by
  intro r
  dsimp only
  split
  · exact Prog.within_ret _ _
  · -- Four values are stored and four are read: nine operations, and five for the rest.
    intro _ _ _ _ _ _ _ _
    dsimp only
    split
    · exact Prog.within_ret _ _
    · exact deliver_within _ _

end Length

/-! ## §2 The threads -/

/-- A thread is in a call exactly while a script runs, and that script is not longer than `main`. -/
def Thread.Steady (t : Thread Num) : Prop :=
  (t.pc = .call ↔ t.running.isSome) ∧ ∀ r, t.running = some r → r.rest.Within 14

variable {h later : List (ProcessEvent Num)} {p p' : Process Num} {before after : List (Thread Num)}
  {t t' : Thread Num}

/-- Only a thread in a call runs the script. -/
theorem running_of_ne {pc : Pc} (hpc : pc ≠ .call) :
    (running env pc : Option (Running Num)) = none := by
  cases pc with
  | call => exact absurd rfl hpc
  | _ => rfl

theorem steady_running (env : Env) (pc : Pc) :
    (⟨pc, running env pc⟩ : Thread Num).Steady := by
  by_cases hpc : pc = .call
  · -- A thread that arrives at the call has the whole script before it.
    subst hpc
    refine ⟨by simp [running], ?_⟩
    rintro r ⟨⟩
    exact main_within env
  · rw [running_of_ne hpc]
    refine ⟨by simp [hpc], ?_⟩
    intro r hr
    cases hr

/-- A step of the process keeps all threads steady, and their number. -/
theorem steady_step {e : ProcessEvent Num} (hall : ∀ t ∈ p.threads, t.Steady)
    (hs : ProcessStep env p e p') :
    (∀ t ∈ p'.threads, t.Steady) ∧ p'.threads.length = p.threads.length := by
  cases hs with
  | signal signo pc => exact ⟨hall, rfl⟩
  | @deal before after pc e w here step own =>
    -- The thread runs a script exactly if it arrives at the call.
    refine ⟨keeps_focus hall here (steady_running env w.pc), ?_⟩
    rw [here]
    simp [Process.after]
  | @act before after acts op k r shared here performs =>
    obtain ⟨-, hwithin⟩ := hall _ (here ▸ List.mem_append_right _ List.mem_cons_self)
    refine ⟨keeps_focus hall here ⟨by simp, ?_⟩, by simp [here]⟩
    rintro r' ⟨⟩
    -- What is left of a script is shorter than the script.
    have hrest : (Prog.call op k).Within 14 := hwithin _ rfl
    exact (hrest r).mono (Nat.le_succ 13)
  | @ended before after acts r w here step =>
    refine ⟨keeps_focus hall here ⟨?_, nofun⟩, by simp [here, Process.after]⟩
    -- After a call the thread is at the guard, or leaves the inner loop.
    cases step with
    | call _ => cases r.ok <;> simp

theorem steady_run (hrun : Runs (ProcessStep env) (Process.start workers queue) h p) :
    (∀ t ∈ p.threads, t.Steady) ∧ p.threads.length = workers := by
  induction hrun with
  | start =>
    refine ⟨?_, List.length_replicate⟩
    intro t ht
    rw [List.eq_of_mem_replicate ht]
    exact ⟨by simp, nofun⟩
  -- One more step keeps all threads steady.
  | next _ hs ih =>
    obtain ⟨hall, hlen⟩ := steady_step ih.1 hs
    exact ⟨hall, hlen.trans ih.2⟩

/-! ## §3 After the signal -/

/-- The steps from a point of `deal` to its end, once both flags are set. -/
def stepsLeft : Pc → Nat
  | .guard => 4
  | .clear => 3
  | .close => 2
  | .testExit => 1
  | _ => 0

/-- The steps a thread makes at most; with a script, its operations and its end come first. -/
noncomputable def Thread.rank (t : Thread Num) : Nat :=
  match t.running with
  | some r => r.rest.depth + 5
  | none => stepsLeft t.pc

noncomputable def Process.rank (p : Process Num) : Nat := (p.threads.map Thread.rank).sum

/-- Both flags are set, and no thread is about to reset one. -/
structure Closing (p : Process Num) : Prop where
  exit : p.bExit = true
  update : p.bUpdate = true
  loaded : ∀ t ∈ p.threads, ¬ t.pc.loading
  steady : ∀ t ∈ p.threads, t.Steady

/-- A step of a thread, not of a signal. -/
def ProcessEvent.isStep : ProcessEvent Num → Bool
  | .signal _ => false
  | _ => true

theorem rank_focus (here : p.threads = before ++ t :: after) :
    p.rank = (before.map Thread.rank).sum + (t.rank + (after.map Thread.rank).sum) := by
  rw [Process.rank, here, List.map_append, List.sum_append, List.map_cons, List.sum_cons]

/-- One thread with fewer steps left. -/
theorem rank_lt (here : p.threads = before ++ t :: after)
    (here' : p'.threads = before ++ t' :: after) (hlt : t'.rank < t.rank) :
    p'.rank + 1 ≤ p.rank := by
  rw [rank_focus here, rank_focus here']
  omega

theorem rank_of_depth (pc : Pc) (r : Running Num) : Thread.rank ⟨pc, some r⟩ = r.rest.depth + 5 :=
  rfl

/-- A step of `deal` in a closing process. -/
theorem stepsLeft_lt {e : WorkerEvent} {w : MainFrame.Worker} {pc : Pc} (hclosing : Closing p)
    (hpc : ¬ pc.loading) (hcall : pc ≠ .call) (step : WorkerStep (p.worker pc) e w)
    (own : ∀ signo, e ≠ .signal signo) :
    w.bExit = true ∧ w.bUpdate = true ∧ ¬ w.pc.loading ∧ w.pc ≠ .call ∧
      stepsLeft w.pc < stepsLeft pc := by
  obtain ⟨hexit, hupdate, -, -⟩ := hclosing
  -- With `bUpdate` set the guard fails, and with `bExit` set the outer loop ends.
  have hguard : (p.worker pc).guard = false := by
    simp [Process.worker, MainFrame.Worker.guard, hupdate]
  cases step with
  | signal signo => exact absurd rfl (own signo)
  | testExit here test =>
    obtain rfl : pc = .testExit := here
    have htest : _ = false := test.trans (by simp [Process.worker, hexit])
    subst htest
    simp [Process.worker, hexit, hupdate, stepsLeft, Pc.loading, Pc.loaded]
  | guard here test =>
    obtain rfl : pc = .guard := here
    rw [hguard] at test
    subst test
    simp [Process.worker, hexit, hupdate, stepsLeft, Pc.loading, Pc.loaded]
  | clear here =>
    obtain rfl : pc = .clear := here
    simp [Process.worker, hexit, hupdate, stepsLeft, Pc.loading, Pc.loaded]
  | close here =>
    obtain rfl : pc = .close := here
    simp [Process.worker, hexit, hupdate, stepsLeft, Pc.loading, Pc.loaded]
  -- The thread runs no script, and it is not loading one.
  | call here => exact absurd here hcall
  | create here => exact absurd (.inl here) hpc
  | read here => exact absurd (.inr (.inl here)) hpc
  | run here => exact absurd (.inr (.inr (.inl here))) hpc
  | init here => exact absurd (.inr (.inr (.inr (.inl here)))) hpc
  | reset here => exact absurd (.inr (.inr (.inr (.inr here)))) hpc

theorem mem_here (here : p.threads = before ++ t :: after) : t ∈ p.threads :=
  here ▸ List.mem_append_right _ List.mem_cons_self

/-- **One step** of a closing process: signals change nothing, and every other event leaves fewer
steps. -/
theorem shutdown_step {e : ProcessEvent Num} (hclosing : Closing p) (hs : ProcessStep env p e p') :
    Closing p' ∧ p'.rank + (if e.isStep then 1 else 0) ≤ p.rank := by
  have hsteady := (steady_step hclosing.steady hs).1
  cases hs with
  | signal signo pc =>
    -- A signal sets flags that are set already.
    obtain ⟨hexit, hupdate, hloaded, -⟩ := hclosing
    refine ⟨⟨?_, ?_, hloaded, hsteady⟩, le_rfl⟩
    · cases signo
      · exact hexit
      · rfl
    · cases signo <;> rfl
  | @deal before after pc e w here step own =>
    have hnotcall : pc ≠ .call := by
      intro hpc
      -- A thread in a call has a script, and this one has none.
      have hsome := (hclosing.steady _ (mem_here here)).1.mp hpc
      cases hsome
    -- A step of `deal` leads nearer to its end, and into no call.
    obtain ⟨hexit, hupdate, hload, hcall, hlt⟩ :=
      stepsLeft_lt hclosing (hclosing.loaded _ (mem_here here)) hnotcall step own
    refine ⟨⟨hexit, hupdate, keeps_focus hclosing.loaded here hload, hsteady⟩, ?_⟩
    apply rank_lt here rfl
    rw [running_of_ne hcall]
    exact hlt
  | @act before after acts op k r shared here performs =>
    obtain ⟨hexit, hupdate, hloaded, hold⟩ := hclosing
    -- An operation leaves less of the script, whatever it returns.
    have hpc := hloaded _ (mem_here here)
    refine ⟨⟨hexit, hupdate, keeps_focus hloaded here hpc, hsteady⟩, ?_⟩
    apply rank_lt here rfl
    have hwithin : (Prog.call op k).Within 14 := (hold _ (mem_here here)).2 _ rfl
    rw [rank_of_depth, rank_of_depth]
    exact Nat.add_lt_add_right (hwithin.depth_lt r) 5
  | @ended before after acts r w here step =>
    -- The end of a script leads to the guard or out of the inner loop.
    have hload : ¬ w.pc.loading ∧ stepsLeft w.pc ≤ 4 ∧ w.bExit = true ∧ w.bUpdate = true := by
      cases step with
      | call _ =>
        have hexit := hclosing.exit
        have hupdate := hclosing.update
        cases r.ok <;> simp [Process.worker, hexit, hupdate, stepsLeft, Pc.loading, Pc.loaded]
    obtain ⟨hload, hleft, hexit, hupdate⟩ := hload
    refine ⟨⟨hexit, hupdate, keeps_focus hclosing.loaded here hload, hsteady⟩, ?_⟩
    apply rank_lt here rfl
    -- The four steps that are left at most were counted with the script.
    rw [rank_of_depth]
    exact Nat.lt_of_le_of_lt hleft (Nat.lt_add_left _ (by decide))

/-- A whole run of a closing process. -/
theorem shutdown_run (hclosing : Closing p) (hlater : Runs (ProcessStep env) p later p') :
    Closing p' ∧ p'.rank + later.countP ProcessEvent.isStep ≤ p.rank := by
  induction hlater with
  | start => exact ⟨hclosing, le_rfl⟩
  | @next h s s' e _ hs ih =>
    obtain ⟨hbefore, hrank⟩ := ih
    obtain ⟨hnow, hstep⟩ := shutdown_step hbefore hs
    refine ⟨hnow, ?_⟩
    rw [List.countP_cons]
    omega

/-- A thread has at most 19 steps left. -/
theorem rank_le (hall : ∀ t ∈ p.threads, t.Steady) : p.rank ≤ 19 * p.threads.length := by
  -- Without a script four steps are left at most, with one its 14 operations and five more.
  have hthread : ∀ n ∈ p.threads.map Thread.rank, n ≤ 19 := by
    intro n hn
    obtain ⟨t, ht, rfl⟩ := List.mem_map.mp hn
    obtain ⟨pc, running⟩ := t
    cases running with
    | none => cases pc <;> exact Nat.le_of_ble_eq_true rfl
    | some r =>
      rw [rank_of_depth]
      exact Nat.add_le_add_right ((hall _ ht).2 r rfl).depth_le 5
  have hsum := List.sum_le_card_nsmul _ _ hthread
  rw [List.length_map] at hsum
  rw [Nat.mul_comm]
  exact hsum

/-! ## §4 Progress -/

/-- A thread that is not done can make a step. -/
theorem exists_step (hinv : ProcessInv env workers queue sent h p)
    (hall : ∀ t ∈ p.threads, t.Steady) {t : Thread Num} (ht : t ∈ p.threads) (hpc : t.pc ≠ .done) :
    ∃ e p', ProcessStep env p e p' ∧ e.isStep = true := by
  obtain ⟨before, after, here⟩ := List.append_of_mem ht
  obtain ⟨pc, running⟩ := t
  cases running with
  | none =>
    -- One step of `deal`.
    have hdeal : ∃ e w, WorkerStep (p.worker pc) e w ∧ ∀ signo, e ≠ .signal signo := by
      cases pc with
      | testExit => exact ⟨_, _, .testExit rfl rfl, nofun⟩
      | create => exact ⟨_, _, .create rfl, nofun⟩
      | read => exact ⟨.read true, _, .read rfl, nofun⟩
      | run => exact ⟨.run true, _, .run rfl, nofun⟩
      | init => exact ⟨_, _, .init rfl, nofun⟩
      | reset => exact ⟨_, _, .reset rfl, nofun⟩
      | guard => exact ⟨_, _, .guard rfl rfl, nofun⟩
      | call => exact ⟨.call true, _, .call rfl, nofun⟩
      | clear => exact ⟨_, _, .clear rfl, nofun⟩
      | close => exact ⟨_, _, .close rfl, nofun⟩
      | done => exact absurd rfl hpc
    obtain ⟨e, w, step, own⟩ := hdeal
    exact ⟨_, _, .deal here step own, rfl⟩
  | some r =>
    obtain ⟨acts, rest⟩ := r
    obtain rfl : pc = .call := (hall _ ht).1.mpr rfl
    -- A running script is never stuck.
    have hdefined := hinv.defined ht rfl
    cases rest with
    | ret x =>
      cases x with
      | none => exact absurd rfl hdefined
      | some r => exact ⟨_, _, .ended here (.call rfl), rfl⟩
    | call op k =>
      obtain ⟨r, w', hsem⟩ := exists_sem hdefined
      exact ⟨_, _, .act here hsem, rfl⟩

/-- When all threads have left `deal`, only signals are left. -/
theorem isStep_of_done (hdone : ∀ t ∈ p.threads, t = ⟨.done, none⟩) {e : ProcessEvent Num}
    (hs : ProcessStep env p e p') : e.isStep = false := by
  cases hs with
  | signal signo pc => rfl
  | @deal before after pc e w here step own =>
    obtain ⟨rfl, -⟩ := Thread.mk.inj (hdone _ (mem_here here))
    cases step with
    | signal signo => exact absurd rfl (own signo)
    | testExit here test => cases here
    | create here => cases here
    | read here => cases here
    | run here => cases here
    | init here => cases here
    | reset here => cases here
    | guard here test => cases here
    | call here => cases here
    | clear here => cases here
    | close here => cases here
  | act here performs => cases hdone _ (mem_here here)
  | ended here step => cases hdone _ (mem_here here)

/-- **The process ends**: once `SIGTERM` is handled while no thread is loading a script, the threads
make at most 19 steps for each of them in all, whatever order they run in, whatever their calls
return and whatever signals follow; and they only stop making steps when every thread has left
`deal`. -/
theorem shutdown (hw : workers < 2 ^ 31 - 1) (hA : env.Roomy (2 ^ 15))
    (hrun : Runs (ProcessStep env) (Process.start workers queue) (.signal .SIGTERM :: h) p)
    (hload : ∀ t ∈ p.threads, ¬ t.pc.loading) (hlater : Runs (ProcessStep env) p later p') :
    later.countP ProcessEvent.isStep ≤ 19 * workers ∧
      ((∀ e p'', ProcessStep env p' e p'' → e.isStep = false) →
        ∀ t ∈ p'.threads, t.pc = .done) := by
  obtain ⟨hsteady, hlen⟩ := steady_run hrun
  -- The signal sets both flags, and no thread is about to reset one.
  have hclosing : Closing p := by
    cases hrun with
    | next _ hs =>
      cases hs with
      | signal signo pc => exact ⟨rfl, rfl, hload, hsteady⟩
  obtain ⟨hclosing', hrank⟩ := shutdown_run hclosing hlater
  have hmax := rank_le hsteady
  rw [hlen] at hmax
  refine ⟨by omega, ?_⟩
  intro hstuck t ht
  -- A thread that is not done could make a step.
  by_contra hpc
  have hinv := processInv_run hw hA (hrun.trans hlater)
  obtain ⟨e, p'', hs, he⟩ := exists_step hinv hclosing'.steady ht hpc
  rw [hstuck e p'' hs] at he
  cases he

/-- `SIGTERM` while two scripts are running: both requests end, and so do both threads. -/
theorem shutdown_two :
    ∃ (h later : List (ProcessEvent IntegerNumber)) (p p' : Process IntegerNumber)
      (garbled garbled' : Bytes),
      Runs (ProcessStep roomyEnv) (Process.start 2 (some ⟨0, []⟩)) (.signal .SIGTERM :: h) p ∧
      Runs (ProcessStep roomyEnv) p later p' ∧
      .ended (delivered roomyEnv (record 1) garbled (record 2)) ∈ later ∧
      .ended (delivered roomyEnv (record 2) garbled' (record 1)) ∈ later ∧
      later.countP ProcessEvent.isStep ≤ 38 ∧ p'.threads.length = 2 ∧
      ∀ t ∈ p'.threads, t.pc = .done := by
  obtain ⟨f₁, f₂, f₃, text, rest, sent, sent', garbled, garbled', early, middle, late, hearly,
    hmiddle, hlate⟩ := two_requests true true
  have hterm := hearly.next (.signal .SIGTERM .call)
  have hload : ∀ t ∈ (halfStored false false f₁ text rest).threads, ¬ t.pc.loading := by
    intro t ht
    rcases List.mem_cons.mp ht with rfl | ht
    · simp [Pc.loading, Pc.loaded]
    · rw [List.mem_singleton.mp ht]
      simp [Pc.loading, Pc.loaded]
  -- Both scripts go on to their ends, and then both threads leave.
  have hlater : Runs (ProcessStep roomyEnv) (halfStored true true f₁ text rest) _ _ :=
    ((hmiddle.trans hlate).trans (thread_leaves [] rfl rfl rfl)).trans
      (thread_leaves [_] rfl rfl rfl)
  obtain ⟨hsteps, hdone⟩ := shutdown (by decide) roomy_roomyEnv hterm hload hlater
  refine ⟨early, _, _, _, garbled, garbled', hterm, hlater, ?_, ?_, hsteps, rfl, ?_⟩
  · simp
  · simp
  · apply hdone
    intro e p'' hs
    refine isStep_of_done (fun t ht => ?_) hs
    rcases List.mem_cons.mp ht with rfl | ht
    · rfl
    · exact List.mem_singleton.mp ht

end MyLua.Service
