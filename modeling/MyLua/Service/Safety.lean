import MyLua.Service.Executions

/-!
# Every Request Is Served

The invariant of the process: the main frame and the queue agree with what the running scripts own
and owe, and every running script keeps its contract. It holds after every run, for any number of
threads, any order of their operations, and signals at any time.

## Main results

- `processInv_run`: the invariant after every run.
- `requests_served`: no script fails, and every request that ends was served.
- `numbers_owned`, `values_owned`: numbers and values belong to one script each.
- `backlog_bounded`: how many messages wait in the queue.
- `request_ends`: a script that runs can be run to its end.
-/

namespace MyLua.Service

open MyLua.Foundation
open MyLua.MainFrame (Pc Worker WorkerEvent WorkerStep)

variable {Num : Type} [LuaInteger Num] {env : Env} {workers : Nat} {queue : Option Queue}
  {sent : List Message}

/-! ## §1 The invariant -/

/-- How far a script is, from what it has performed. -/
def stageOf (acts : List (Act (ScriptOp Num) ScriptOp.Res)) : Stage :=
  (contract 0 none []).after Stage.idle acts

/-- How far the script of a thread is. -/
def Thread.stage (t : Thread Num) : Stage :=
  match t.running with
  | none => Stage.idle
  | some r => stageOf r.acts

/-- The stages of all threads. -/
def Process.stages (p : Process Num) : List Stage := p.threads.map Thread.stage

/-- The requests that received no message, with an error. -/
def missed (h : List (ProcessEvent Num)) : Nat :=
  h.countP fun
    | .ended r => r.missed
    | _ => false

/-- What holds between two steps of the process. -/
structure ProcessInv (env : Env) (workers : Nat) (queue : Option Queue) (sent : List Message)
    (h : List (ProcessEvent Num)) (p : Process Num) : Prop where
  shared : SharedInv workers queue sent (missed h) p.shared p.stages
  keeps : ∀ t ∈ p.threads, ∀ r, t.running = some r →
    r.rest.Keeps (contract workers queue sent) (Finished env workers queue sent) (stageOf r.acts)
  served : ∀ r, .ended r ∈ h → Served env workers queue sent r

variable {h : List (ProcessEvent Num)} {p p' : Process Num} {before after : List (Thread Num)}
  {t t' : Thread Num}

omit [LuaInteger Num] in
theorem missed_ended (r : Ended) (h : List (ProcessEvent Num)) :
    missed (.ended r :: h) = missed h + if r.missed then 1 else 0 := by
  rw [missed, List.countP_cons]
  rfl

theorem stages_focus (here : p.threads = before ++ t :: after) :
    p.stages = before.map Thread.stage ++ t.stage :: after.map Thread.stage := by
  rw [Process.stages, here, List.map_append, List.map_cons]

/-- A thread that gets another state, among threads that keep their contracts. -/
theorem keeps_focus {P : Thread Num → Prop} (hall : ∀ t ∈ p.threads, P t)
    (here : p.threads = before ++ t :: after) (ht' : P t') : ∀ u ∈ before ++ t' :: after, P u := by
  intro u hu
  rw [here] at hall
  rcases List.mem_append.mp hu with hu | hu
  · exact hall u (List.mem_append_left _ hu)
  · rcases List.mem_cons.mp hu with rfl | hu
    · exact ht'
    · exact hall u (List.mem_append_right _ (List.mem_cons_of_mem _ hu))

theorem stage_of_acts (pc : Pc) (acts : List (Act (ScriptOp Num) ScriptOp.Res))
    (rest : Script Num) : Thread.stage ⟨pc, some ⟨acts, rest⟩⟩ = stageOf acts := rfl

/-- The ghost state of a script depends only on what it performed. -/
theorem stageOf_snoc (workers : Nat) (queue : Option Queue) (sent : List Message)
    (acts : List (Act (ScriptOp Num) ScriptOp.Res)) (op : ScriptOp Num) (r : op.Res) :
    stageOf (acts ++ [⟨op, r⟩]) = (contract workers queue sent).next (stageOf acts) op r := by
  rw [stageOf, Contract.after_snoc]
  rfl

/-! ## §2 Runs -/

/-- Before the first step. -/
theorem sharedInv_start : SharedInv workers queue sent 0 ⟨MainFrame.start, queue⟩
    (List.replicate workers Stage.idle) := by
  -- No number is out, and the stack has the first one.
  have hheld : heldBy (List.replicate workers Stage.idle) = [] :=
    List.filterMap_eq_nil_iff.mpr fun s hs => by rw [List.eq_of_mem_replicate hs]; rfl
  have hpool : Pool.Valid ⟨[], 1, []⟩ := ⟨le_rfl, List.nodup_nil, fun n => by simp⟩
  refine ⟨⟨by simp, ⟨_, hpool, rfl, ?_, ?_⟩, ?_, ?_⟩, fun m hm => .inl hm, ?_, ?_⟩
  · rw [hheld]
  · exact le_add_of_nonneg_left (Int.natCast_nonneg workers)
  · intro n hn
    exact absurd rfl hn
  · intro s hs n hn
    rw [List.eq_of_mem_replicate hs] at hn
    cases hn
  · exact (Nat.le_add_right _ _).trans (Nat.le_add_right _ _)
  · intro s hs howes
    rw [List.eq_of_mem_replicate hs] at howes
    cases howes

/-- A script ends: it holds no number, and its message is made up for or missed. -/
theorem SharedInv.finish {w : Shared} {before after : List Stage} {s : Stage} {m n : Nat}
    (hinv : SharedInv workers queue sent m w (before ++ s :: after)) (hs : s.held = none)
    (hn : m + (if s.owes then 1 else 0) ≤ n) :
    SharedInv workers queue sent n w (before ++ Stage.idle :: after) := by
  obtain ⟨hstore, hknown, hbacklog, hpresent⟩ := hinv
  -- The script owned nothing any more, so the main frame agrees with the others as before.
  refine ⟨hstore.congr hs.symm fun _ => nofun, hknown, ?_, ?_⟩
  · rw [countP_focus] at hbacklog
    -- The message that the script owes becomes one that was missed.
    rw [countP_focus]
    have hidle : (if Stage.idle.owes then 1 else 0) = 0 := rfl
    omega
  · intro t ht howes
    rcases mem_focus ht with rfl | ht
    · cases howes
    · exact hpresent t (mem_of_mem_others ht) howes

/-- An event that is not the end of a request. -/
theorem ProcessInv.quiet {e : ProcessEvent Num} (hinv : ProcessInv env workers queue sent h p)
    (he : ∀ r, e ≠ .ended r)
    (hshared : SharedInv workers queue sent (missed h) p'.shared p'.stages)
    (hkeeps : ∀ t ∈ p'.threads, ∀ r, t.running = some r →
      r.rest.Keeps (contract workers queue sent) (Finished env workers queue sent)
        (stageOf r.acts)) :
    ProcessInv env workers queue sent (e :: h) p' := by
  refine ⟨?_, hkeeps, ?_⟩
  · -- Only the end of a request can count as missed.
    have hmissed : missed (e :: h) = missed h := by
      apply List.countP_cons_of_neg
      cases e with
      | ended r => exact absurd rfl (he r)
      | _ => simp
    rw [hmissed]
    exact hshared
  · intro r hr
    rcases List.mem_cons.mp hr with rfl | hr
    · -- The requests that ended are those that ended before.
      exact absurd rfl (he r)
    · exact hinv.served r hr

/-- A thread that starts a request, or runs none. -/
theorem stage_running (pc : Pc) :
    Thread.stage (⟨pc, running env pc⟩ : Thread Num) = Stage.idle := by
  cases pc <;> rfl

/-- **One step** of the process, which sends, if it sends, one of the messages of the list. -/
theorem processInv_step (hw : workers < 2 ^ 31 - 1) (hA : env.Roomy (2 ^ 15))
    {e : ProcessEvent Num} (hinv : ProcessInv env workers queue sent h p)
    (hsent : ∀ m ∈ sentIn [e], m ∈ sent) (hs : ProcessStep env p e p') :
    ProcessInv env workers queue sent (e :: h) p' := by
  have hshared := hinv.shared
  cases hs with
  | signal signo pc =>
    -- The flags are not shared with the scripts.
    exact hinv.quiet nofun hshared hinv.keeps
  | @deal before after pc e w here step own =>
    rw [stages_focus here] at hshared
    refine hinv.quiet nofun ?_ ?_
    · -- Nothing is owned before the first operation, whether a script starts or not.
      rw [stages_focus rfl, stage_running]
      exact hshared
    · apply keeps_focus hinv.keeps here
      intro r hr
      -- A thread that arrives at the call runs the whole script, which keeps its contract.
      have hpc : r = ⟨[], main env⟩ := by
        cases hw' : w.pc <;> simp [running, hw'] at hr
        exact hr.symm
      rw [hpc]
      exact main_keeps (by omega) hA
  | @act before after acts op k r shared here performs =>
    -- The contract is upheld, whatever the other scripts have done.
    rw [stages_focus here] at hshared
    have hkeeps := hinv.keeps _ (here ▸ List.mem_append_right _ List.mem_cons_self) _ rfl
    -- What this operation sends is in the list.
    have hop : ∀ m, sentBy ⟨op, r⟩ = some m → m ∈ sent := fun m hm =>
      hsent m (List.mem_filterMap.mpr ⟨_, List.mem_singleton_self _, hm⟩)
    obtain ⟨hshared', hrest⟩ :=
      (contract_upheld hw queue sent (missed h)).act hshared hkeeps ⟨performs, hop⟩
    have hnext := stageOf_snoc workers queue sent acts op r
    refine hinv.quiet nofun ?_ ?_
    · rw [stages_focus rfl, stage_of_acts, hnext]
      exact hshared'
    · apply keeps_focus hinv.keeps here
      rintro r' ⟨⟩
      rw [hnext]
      exact hrest
  | @ended before after acts r w here step =>
    rw [stages_focus here] at hshared
    -- What the contract says of the end: the request is served, and no number is held.
    obtain ⟨hheld, r', hr', hserved, howes⟩ :=
      hinv.keeps _ (here ▸ List.mem_append_right _ List.mem_cons_self) _ rfl
    obtain rfl := Option.some.inj hr'
    refine ⟨?_, ?_, ?_⟩
    · rw [stages_focus rfl]
      apply hshared.finish hheld
      rw [missed_ended]
      apply Nat.add_le_add_left
      -- A script that still owes a message reports that it received none.
      split
      · rename_i ho
        rw [howes ho, if_pos rfl]
      · exact Nat.zero_le _
    · apply keeps_focus hinv.keeps here
      nofun
    · intro r' hr'
      -- The request that ends now is served; the others ended before.
      rcases List.mem_cons.mp hr' with heq | hr'
      · cases heq
        exact hserved
      · exact hinv.served r' hr'

/-- **Every run** of the process, from an empty main frame and any queue; the list is that of all
messages the scripts send in the run. -/
theorem processInv_run (hw : workers < 2 ^ 31 - 1) (hA : env.Roomy (2 ^ 15))
    (hrun : Runs (ProcessStep env) (Process.start workers queue) h p) :
    ProcessInv env workers queue (sentIn h) h p := by
  apply hrun.events.invariant (I := fun h' p' => ProcessInv env workers queue (sentIn h) h' p')
  · refine ⟨?_, ?_, nofun⟩
    · have hstages : (Process.start workers queue : Process Num).stages =
          List.replicate workers Stage.idle := List.map_replicate
      rw [hstages]
      exact sharedInv_start
    · intro t ht r hr
      rw [List.eq_of_mem_replicate ht] at hr
      cases hr
  · intro h' s e s' hinv hstep
    apply processInv_step hw hA hinv _ hstep.2
    -- The event is one of the run, so its message is one of the list.
    have hsub : [e] ⊆ h := List.cons_subset.mpr ⟨hstep.1, List.nil_subset _⟩
    exact fun m hm => List.filterMap_subset _ hsub hm

/-! ## §3 Requests -/

/-- What the script does next is defined: it does not end with an access outside an object, and
`top()` finds an element. -/
def Defined (w : Shared) : Script Num → Prop
  | .ret x => x ≠ none
  | .call (.frame call) _ => ∀ now, (call.run now w.frame).isSome
  | .call (.queue _) _ => True

/-- A call of the main frame is defined while the stack has an element. -/
theorem run_isSome {f : MainFrame.Frame} (hne : f.gStseq ≠ []) (now : Int)
    (call : MainFrame.Call Num) : (call.run now f).isSome := by
  rw [MainFrame.Call.run_eq_exec]
  cases call.op with
  | stackSeqno =>
    -- Only `top()` of an empty stack is undefined.
    cases hst : f.gStseq with
    | nil => exact absurd hst hne
    | cons n rest => simp [MainFrame.Frame.exec, hst]
  | cls n =>
    simp only [MainFrame.Frame.exec]
    split <;> rfl
  | _ => rfl

theorem StoreInv.gStseq_ne_nil {f : MainFrame.Frame} {ss : List Stage}
    (h : StoreInv workers f ss) : f.gStseq ≠ [] := by
  obtain ⟨pool, -, hstack, -⟩ := h.pool
  rw [← hstack, Pool.stack]
  exact List.append_ne_nil_of_right_ne_nil _ (List.cons_ne_nil _ _)

/-- A running script is never stuck. -/
theorem ProcessInv.defined (hinv : ProcessInv env workers queue sent h p) {t : Thread Num}
    (ht : t ∈ p.threads) {r : Running Num} (hr : t.running = some r) : Defined p.shared r.rest := by
  have hkeeps := hinv.keeps t ht r hr
  cases hrest : r.rest with
  | ret x =>
    -- A script that has ended ended with a result, as its contract says.
    rw [hrest] at hkeeps
    obtain ⟨-, r', rfl, -⟩ := hkeeps
    exact Option.some_ne_none r'
  | call op k =>
    cases op with
    | frame call => exact fun now => run_isSome hinv.shared.1.gStseq_ne_nil now call
    | queue op => trivial

/-- An operation that is defined can be performed; a system call can always fail. -/
theorem exists_sem {w : Shared} {op : ScriptOp Num} {k : op.Res → Script Num}
    (hdefined : Defined w (.call op k)) : ∃ r w', Sem w op r w' := by
  cases op with
  | frame call =>
    obtain ⟨⟨r, f'⟩, hrun⟩ := Option.isSome_iff_exists.mp (hdefined 0)
    exact ⟨r, _, .frame hrun⟩
  | queue op =>
    cases op with
    -- A system call may fail for a reason outside the queue.
    | msgget flg => exact ⟨.error 1, _, .queue (.denied (by decide) (by decide))⟩
    | msgsnd msqid mtype mtext flg => exact ⟨.error 1, _, .queue .notSent⟩
    | msgrcv msqid msgsz msgtyp flg => exact ⟨.error 1, _, .queue .notReceived⟩

/-- A running script can always be run to its end. -/
theorem request_ends (hw : workers < 2 ^ 31 - 1) (hA : env.Roomy (2 ^ 15))
    (hrun : Runs (ProcessStep env) (Process.start workers queue) h p)
    {acts : List (Act (ScriptOp Num) ScriptOp.Res)} {rest : Script Num}
    (here : p.threads = before ++ ⟨.call, some ⟨acts, rest⟩⟩ :: after) :
    ∃ later p' r, Runs (ProcessStep env) p later p' ∧ .ended r ∈ later := by
  have hmem := here ▸ List.mem_append_right before List.mem_cons_self
  have hdefined := (processInv_run hw hA hrun).defined hmem rfl
  -- By induction on what is left of the script, which is defined after every run.
  induction rest generalizing h p acts with
  | ret x =>
    cases x with
    | none => exact absurd rfl hdefined
    | some r =>
      exact ⟨_, _, r, Runs.start.next (.ended here (.call rfl)), List.mem_cons_self⟩
  | call op k ih =>
    obtain ⟨r, w, hsem⟩ := exists_sem hdefined
    have hact : ProcessStep env p (.act ⟨op, r⟩) _ := .act here hsem
    have hmem' : (⟨.call, some ⟨acts ++ [⟨op, r⟩], k r⟩⟩ : Thread Num) ∈
        before ++ ⟨.call, some ⟨acts ++ [⟨op, r⟩], k r⟩⟩ :: after :=
      List.mem_append_right before List.mem_cons_self
    have hrun' := hrun.next hact
    obtain ⟨later, p', r', hlater, hended⟩ :=
      ih r hrun' rfl hmem' ((processInv_run hw hA hrun').defined hmem' rfl)
    exact ⟨_, p', r', (Runs.start.next hact).trans hlater, List.mem_append_left _ hended⟩

/-- **Every request is served**: whatever the threads do, in whatever order, and whenever signals
come, no running script accesses memory outside an object or finds the stack of numbers empty, and
every request that ended did so without an error: the script read back what it stored under its own
number, every codec gave its text back, a text that `dequeue` returned is that text and was sent in
the run, and what was received is the payload of a message that was in the queue at the start or
that a script of the process sent. -/
theorem requests_served (hw : workers < 2 ^ 31 - 1) (hA : env.Roomy (2 ^ 15))
    (hrun : Runs (ProcessStep env) (Process.start workers queue) h p) :
    (∀ r, .ended r ∈ h → Served env workers queue (sentIn h) r) ∧
      ∀ t ∈ p.threads, ∀ r, t.running = some r → Defined p.shared r.rest := by
  have hinv := processInv_run hw hA hrun
  exact ⟨hinv.served, fun t ht r hr => hinv.defined ht hr⟩

/-- Two requests at the same time, each of which receives the text of the other. -/
theorem requests_served_two :
    ∃ (h : List (ProcessEvent IntegerNumber)) (p : Process IntegerNumber)
      (garbled garbled' : Bytes),
      Runs (ProcessStep roomyEnv) (Process.start 2 (some ⟨0, []⟩)) h p ∧
      .ended (delivered roomyEnv (record 1) garbled (record 2)) ∈ h ∧
      .ended (delivered roomyEnv (record 2) garbled' (record 1)) ∈ h ∧
      Served roomyEnv 2 (some ⟨0, []⟩) (sentIn h)
        (delivered roomyEnv (record 1) garbled (record 2)) ∧
      Served roomyEnv 2 (some ⟨0, []⟩) (sentIn h)
        (delivered roomyEnv (record 2) garbled' (record 1)) := by
  obtain ⟨_, _, _, _, _, _, _, garbled, garbled', early, middle, late, hearly, hmiddle, hlate⟩ :=
    two_requests false false
  have hrun := (hearly.trans hmiddle).trans hlate
  have hserved := (requests_served (by decide) roomy_roomyEnv hrun).1
  -- The two ends are the last events.
  exact ⟨_, _, garbled, garbled', hrun, List.mem_cons_self,
    List.mem_cons_of_mem _ List.mem_cons_self, hserved _ List.mem_cons_self,
    hserved _ (List.mem_cons_of_mem _ List.mem_cons_self)⟩

/-! ## §4 Numbers and values -/

/-- The number the script of a thread holds: it got it and did not close it. -/
def Thread.number (t : Thread Num) : Option Int := t.stage.held

/-- What the script of a thread stored last under two keys. -/
def Thread.stored (t : Thread Num) (k1 k2 : Bytes) : Option Bytes := t.stage.content k1 k2

/-- The numbers that are held. -/
def Process.numbers (p : Process Num) : List Int := p.threads.filterMap Thread.number

theorem heldBy_stages (p : Process Num) : heldBy p.stages = p.numbers :=
  List.filterMap_map

/-- **Numbers are owned**: the stack holds some numbers over the next fresh one, `b`, which is at
most one more than there are threads. Each of the numbers below `b` is either in the stack or held
by one thread, once. Only numbers that are held have an entry in `g_mapVal`. -/
theorem numbers_owned (hw : workers < 2 ^ 31 - 1) (hA : env.Roomy (2 ^ 15))
    (hrun : Runs (ProcessStep env) (Process.start workers queue) h p) :
    ∃ (free : List Int) (b : Nat), p.shared.frame.gStseq = free ++ [(b : Int)] ∧ 1 ≤ b ∧
      b ≤ workers + 1 ∧
      (free ++ p.numbers).Perm ((List.range' 1 (b - 1)).map fun k : Nat => (k : Int)) ∧
      ∀ n, p.shared.frame.gMapVal.count n ≠ 0 → n ∈ p.numbers := by
  obtain ⟨hstore, -⟩ := (processInv_run hw hA hrun).shared
  obtain ⟨pool, hvalid, hstack, hout, hnext⟩ := hstore.pool
  have hentries := hstore.entries
  rw [heldBy_stages] at hout hentries
  have hpos := hvalid.pos
  -- The free numbers and those that are out are all numbers below the next fresh one.
  obtain ⟨b, hb⟩ := Int.eq_ofNat_of_zero_le (show 0 ≤ pool.next by omega)
  have hrange := Pool.perm_range hvalid
  have hlast : (pool.next - 1).toNat = b - 1 := by omega
  rw [hlast] at hrange
  refine ⟨pool.free, b, ?_, by omega, by omega, ?_, hentries⟩
  · rw [← hstack, Pool.stack, hb]
  · exact (hout.symm.append_left pool.free).trans hrange

/-- With two threads and both numbers out, the stack holds the number 3. -/
theorem numbers_owned_two :
    ∃ (h : List (ProcessEvent IntegerNumber)) (p : Process IntegerNumber),
      Runs (ProcessStep roomyEnv) (Process.start 2 (some ⟨0, []⟩)) h p ∧ p.numbers = [1, 2] ∧
      ∃ (free : List Int) (b : Nat), p.shared.frame.gStseq = free ++ [(b : Int)] ∧ b ≤ 3 ∧
        (free ++ p.numbers).Perm ((List.range' 1 (b - 1)).map fun k : Nat => (k : Int)) := by
  obtain ⟨_, _, _, _, _, _, _, _, _, early, _, _, hearly, -, -⟩ := two_requests false false
  obtain ⟨free, b, hstack, -, hb, hperm, -⟩ := numbers_owned (by decide) roomy_roomyEnv hearly
  exact ⟨early, _, hearly, rfl, free, b, hstack, hb, hperm⟩

/-- **Values are owned**: whatever the other threads do, what is stored under the number of a script
is what the script itself stored there last, and the empty string where it stored nothing. -/
theorem values_owned (hw : workers < 2 ^ 31 - 1) (hA : env.Roomy (2 ^ 15))
    (hrun : Runs (ProcessStep env) (Process.start workers queue) h p) {t : Thread Num}
    (ht : t ∈ p.threads) {n : Int} (hn : t.number = some n) (k1 k2 : Bytes) :
    MainFrame.valueAt p.shared.frame.gMapVal n k1 k2 = (t.stored k1 k2).getD [] := by
  obtain ⟨hstore, -⟩ := (processInv_run hw hA hrun).shared
  -- The ghost state of the script is what it stored, and the main frame agrees with it.
  have howns := hstore.own t.stage (List.mem_map_of_mem ht)
  exact (howns n hn).1 k1 k2

/-- One script has stored a value, the other one has not: the same two keys have a value under the
number of the first and none under that of the second. -/
theorem values_owned_two :
    ∃ (h : List (ProcessEvent IntegerNumber)) (p : Process IntegerNumber),
      Runs (ProcessStep roomyEnv) (Process.start 2 (some ⟨0, []⟩)) h p ∧ p.numbers = [1, 2] ∧
      MainFrame.valueAt p.shared.frame.gMapVal 1 (ascii "init") (ascii "good") = ascii "sex" ∧
      MainFrame.valueAt p.shared.frame.gMapVal 2 (ascii "init") (ascii "good") = [] := by
  obtain ⟨_, _, _, _, _, _, _, _, _, early, _, _, hearly, -, -⟩ := two_requests false false
  have hvalue := fun t ht n hn => values_owned (by decide) roomy_roomyEnv hearly (t := t) ht
    (n := n) hn (ascii "init") (ascii "good")
  exact ⟨early, _, hearly, rfl, hvalue _ List.mem_cons_self 1 rfl,
    hvalue _ (List.mem_cons_of_mem _ List.mem_cons_self) 2 rfl⟩

/-! ## §5 The queue -/

/-- The script of the thread sent a message and received none since. -/
def Thread.owes (t : Thread Num) : Bool := t.stage.owes

/-- **The backlog is bounded**: the queue never has more messages than at the start, but for one for
each running script that sent its message and received none yet, and one for each request that
ended with an error of `enqueue`. Each of the messages was there at the start or is the text of a
script of the process, which sent it. -/
theorem backlog_bounded (hw : workers < 2 ^ 31 - 1) (hA : env.Roomy (2 ^ 15))
    (hrun : Runs (ProcessStep env) (Process.start workers queue) h p) :
    (messages p.shared.queue).length ≤
        (messages queue).length + p.threads.countP Thread.owes + missed h ∧
      ∀ m ∈ messages p.shared.queue, Known workers queue (sentIn h) m := by
  obtain ⟨-, hqueue⟩ := (processInv_run hw hA hrun).shared
  have hbacklog := hqueue.backlog
  rw [Process.stages, List.countP_map] at hbacklog
  exact ⟨hbacklog, hqueue.known⟩

/-- Two scripts have sent their texts to a queue that was empty, and received nothing yet. -/
theorem backlog_bounded_two :
    ∃ (h : List (ProcessEvent IntegerNumber)) (p : Process IntegerNumber),
      Runs (ProcessStep roomyEnv) (Process.start 2 (some ⟨0, []⟩)) h p ∧
      (messages p.shared.queue).length = 2 ∧
      (messages p.shared.queue).length ≤ p.threads.countP Thread.owes + missed h ∧
      ∀ m ∈ messages p.shared.queue, Known 2 (some ⟨0, []⟩) (sentIn h) m := by
  obtain ⟨_, _, _, _, _, _, _, _, _, early, middle, _, hearly, hmiddle, -⟩ :=
    two_requests false false
  have hrun := hearly.trans hmiddle
  obtain ⟨hbound, hknown⟩ := backlog_bounded (by decide) roomy_roomyEnv hrun
  have hnone : (messages (some ⟨0, []⟩)).length = 0 := rfl
  rw [hnone, Nat.zero_add] at hbound
  exact ⟨_, _, hrun, rfl, hbound, hknown⟩

end MyLua.Service
