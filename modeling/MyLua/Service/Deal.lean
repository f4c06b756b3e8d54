import MyLua.MainFrame.Worker
import MyLua.Service.Script

/-!
# The Process (`deal` and `main` of `mainframe/test.cpp`)

The threads of `main` run `deal` on the same globals: the two flags, the numbers and values of the
main frame, and the queue. Whenever the guard of its inner loop passes, a thread calls the script's
`main`; the operations of the scripts of all threads interleave in any way, and a signal can be
handled between any two steps. The source starts one thread; here their number is a parameter.
-/

namespace MyLua.Service

open MyLua.Foundation
open MyLua.MainFrame (Pc Signal Worker WorkerEvent WorkerStep signalHandle)

variable {Num : Type} [LuaInteger Num]

/-! ## §1 State -/

/-- A call of the script that is running: what it has performed, and what is left of it. -/
structure Running (Num : Type) [LuaInteger Num] where
  acts : List (Act (ScriptOp Num) ScriptOp.Res)
  rest : Script Num

/-- A thread in `deal`. -/
structure Thread (Num : Type) [LuaInteger Num] where
  pc : Pc
  running : Option (Running Num)

/-- What the scripts share: the globals of the main frame, and the queue of key 10039. -/
structure Shared where
  frame : MainFrame.Frame
  queue : Option Queue

/-- The process. -/
structure Process (Num : Type) [LuaInteger Num] where
  bExit : Bool
  bUpdate : Bool
  shared : Shared
  threads : List (Thread Num)

/-- The flags as a worker at `pc` sees them. -/
def Process.worker (p : Process Num) (pc : Pc) : Worker := ⟨pc, p.bExit, p.bUpdate⟩

/-- The process after a step of a worker, with its threads. -/
def Process.after (p : Process Num) (w : Worker) (threads : List (Thread Num)) : Process Num :=
  { p with bExit := w.bExit, bUpdate := w.bUpdate, threads := threads }

/-- After `init` and `pthread_create`, with the queue as it is then. -/
def Process.start (workers : Nat) (queue : Option Queue) : Process Num where
  bExit := false
  bUpdate := false
  shared := ⟨MainFrame.start, queue⟩
  threads := List.replicate workers ⟨.testExit, none⟩

/-! ## §2 Steps -/

/-- An operation of a script: a call of the main frame at some time, or a system call. -/
inductive Sem : Shared → (op : ScriptOp Num) → op.Res → Shared → Prop where
  | frame {s : Shared} {call : MainFrame.Call Num} {now : Int} {r : MainFrame.Outcome}
      {f' : MainFrame.Frame} (runs : call.run now s.frame = some (r, f')) :
      Sem s (.frame call) r { s with frame := f' }
  | queue {s : Shared} {op : Sys} {r : op.Res} {q' : Option Queue}
      (performs : QueueSem s.queue op r q') : Sem s (.queue op) r { s with queue := q' }

/-- `lua_pcall` returns 0. -/
def Ended.ok : Ended → Bool
  | .error => false
  | .finished .. => true

/-- What a thread runs when it arrives at `pc`. -/
def running (env : Env) : Pc → Option (Running Num)
  | .call => some ⟨[], main env⟩
  | _ => none

/-- A signal is handled, a thread makes a step of `deal`, a script performs an operation, or a
script ends. -/
inductive ProcessEvent (Num : Type) where
  | signal (signo : Signal)
  | deal (e : WorkerEvent)
  | act (a : Act (ScriptOp Num) ScriptOp.Res)
  | ended (r : Ended)

/-- The message a script sent with an operation. -/
def sentBy : Act (ScriptOp Num) ScriptOp.Res → Option Message
  | ⟨.queue op, r⟩ => SysAct.appended ⟨op, r⟩
  | ⟨.frame _, _⟩ => none

/-- The messages the scripts sent. -/
def sentIn (h : List (ProcessEvent Num)) : List Message :=
  h.filterMap fun
    | .act a => sentBy a
    | _ => none

/-- One step of the process. -/
inductive ProcessStep (env : Env) : Process Num → ProcessEvent Num → Process Num → Prop where
  | signal {p : Process Num} (signo : Signal) (pc : Pc) :
      ProcessStep env p (.signal signo) (p.after (signalHandle signo (p.worker pc)) p.threads)
  | deal {p : Process Num} {before after : List (Thread Num)} {pc : Pc} {e : WorkerEvent}
      {w : Worker} (here : p.threads = before ++ ⟨pc, none⟩ :: after)
      (step : WorkerStep (p.worker pc) e w) (own : ∀ signo, e ≠ .signal signo) :
      ProcessStep env p (.deal e) (p.after w (before ++ ⟨w.pc, running env w.pc⟩ :: after))
  | act {p : Process Num} {before after : List (Thread Num)}
      {acts : List (Act (ScriptOp Num) ScriptOp.Res)} {op : ScriptOp Num}
      {k : op.Res → Script Num} {r : op.Res} {shared : Shared}
      (here : p.threads = before ++ ⟨.call, some ⟨acts, .call op k⟩⟩ :: after)
      (performs : Sem p.shared op r shared) :
      ProcessStep env p (.act ⟨op, r⟩)
        { p with shared := shared,
                 threads := before ++ ⟨.call, some ⟨acts ++ [⟨op, r⟩], k r⟩⟩ :: after }
  | ended {p : Process Num} {before after : List (Thread Num)}
      {acts : List (Act (ScriptOp Num) ScriptOp.Res)} {r : Ended} {w : Worker}
      (here : p.threads = before ++ ⟨.call, some ⟨acts, .ret (some r)⟩⟩ :: after)
      (step : WorkerStep (p.worker .call) (.call r.ok) w) :
      ProcessStep env p (.ended r) (p.after w (before ++ ⟨w.pc, none⟩ :: after))

end MyLua.Service
