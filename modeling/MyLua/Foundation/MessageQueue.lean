import Mathlib.Data.List.Basic
import Mathlib.Data.List.Count
import Mathlib.Data.List.Perm.Basic
import Mathlib.Data.List.MinMax
import MyLua.Foundation.CString
import MyLua.Foundation.Interactive

/-!
# System V Message Queues

The queue of one key that is not `IPC_PRIVATE`: it may not exist, and once it exists nobody
removes it. `msgget`, `msgsnd` and `msgrcv` are the operations, each of them one step on the
queue; a call that blocks is an operation that is not performed yet.

## Contents

- `select`: the message `msgrcv` takes, and what it leaves.
- `Sys`, `QueueSem`: the system calls and what they do.
- `Accounted`: first in, first out for each type; what went in is what came out or is still there.
-/

namespace MyLua.Foundation

/-- A message: its type and the bytes behind it. -/
structure Message where
  mtype : Int
  mtext : Bytes
  deriving DecidableEq, Repr

/-! ## §1 Selection -/

/-- The first message with a property, and the others. -/
def takeFirst (P : Message → Bool) (q : List Message) : Option (Message × List Message) :=
  (q.find? P).map fun m => (m, q.eraseP P)

/-- The lowest type of a message that is at most `bound`. -/
def lowest (q : List Message) (bound : Int) : Option Int :=
  ((q.map Message.mtype).filter (· ≤ bound)).min?

/-- What `msgrcv` takes: the first message if `msgtyp` is 0, the first of that type if it is
positive, and the first of the lowest type up to `-msgtyp` if it is negative. -/
def select (q : List Message) (msgtyp : Int) : Option (Message × List Message) :=
  if msgtyp = 0 then takeFirst (fun _ => true) q
  else if 0 < msgtyp then takeFirst (fun m => m.mtype = msgtyp) q
  else (lowest q (-msgtyp)).bind fun t => takeFirst (fun m => m.mtype = t) q

theorem takeFirst_split {P : Message → Bool} {q rest : List Message} {m : Message}
    (h : takeFirst P q = some (m, rest)) :
    ∃ before after, q = before ++ m :: after ∧ rest = before ++ after ∧ P m = true ∧
      ∀ x ∈ before, P x = false := by
  obtain ⟨m', hfind, heq⟩ := Option.map_eq_some_iff.mp h
  obtain ⟨rfl, rfl⟩ := Prod.mk.inj heq
  obtain ⟨hm, before, after, rfl, hbefore⟩ := List.find?_eq_some_iff_append.mp hfind
  have hfalse : ∀ x ∈ before, P x = false := fun x hx => by simpa using hbefore x hx
  refine ⟨before, after, rfl, ?_, hm, hfalse⟩
  rw [List.eraseP_append_right _ (by simpa using hfalse), List.eraseP_cons_of_pos hm]

/-- The message taken is the first of its type. -/
theorem select_split {q rest : List Message} {msgtyp : Int} {m : Message}
    (h : select q msgtyp = some (m, rest)) :
    ∃ before after, q = before ++ m :: after ∧ rest = before ++ after ∧
      ∀ x ∈ before, x.mtype ≠ m.mtype := by
  -- Taking the first message of a type leaves those of other types in front of it.
  have hfirst : ∀ t, takeFirst (fun m => m.mtype = t) q = some (m, rest) →
      ∃ before after, q = before ++ m :: after ∧ rest = before ++ after ∧
        ∀ x ∈ before, x.mtype ≠ m.mtype := by
    intro t ht
    obtain ⟨before, after, hq, hrest, hm, hbefore⟩ := takeFirst_split ht
    refine ⟨before, after, hq, hrest, fun x hx heq => ?_⟩
    have hx' := hbefore x hx
    simp only [decide_eq_true_eq, decide_eq_false_iff_not] at hm hx'
    exact hx' (heq.trans hm)
  unfold select at h
  split at h
  · -- Type 0 takes the first message of all: nothing is in front of it.
    obtain ⟨before, after, hq, hrest, -, hbefore⟩ := takeFirst_split h
    exact ⟨before, after, hq, hrest, fun x hx => absurd (hbefore x hx) (by decide)⟩
  · split at h
    · exact hfirst msgtyp h
    · obtain ⟨t, -, ht⟩ := Option.bind_eq_some_iff.mp h
      exact hfirst t ht

theorem mem_of_select {q rest : List Message} {msgtyp : Int} {m : Message}
    (h : select q msgtyp = some (m, rest)) : m ∈ q := by
  obtain ⟨before, after, rfl, -, -⟩ := select_split h
  exact List.mem_append_right _ List.mem_cons_self

theorem mem_of_mem_rest {q rest : List Message} {msgtyp : Int} {m : Message}
    (h : select q msgtyp = some (m, rest)) {x : Message} (hx : x ∈ rest) : x ∈ q := by
  obtain ⟨before, after, rfl, rfl, -⟩ := select_split h
  rcases List.mem_append.mp hx with hx | hx
  · exact List.mem_append_left _ hx
  · exact List.mem_append_right _ (List.mem_cons_of_mem _ hx)

/-! ## §2 System calls -/

def IPC_CREAT : BitVec 32 := 0x200
def IPC_EXCL : BitVec 32 := 0x400
def IPC_NOWAIT : BitVec 32 := 0x800
def MSG_NOERROR : BitVec 32 := 0x1000

def ENOENT : Int := 2
def EEXIST : Int := 17

/-- The system calls on the queue of the key. -/
inductive Sys where
  | msgget (msgflg : BitVec 32)
  | msgsnd (msqid : Int) (mtype : Int) (mtext : Bytes) (msgflg : BitVec 32)
  | msgrcv (msqid : Int) (msgsz : Nat) (msgtyp : Int) (msgflg : BitVec 32)

/-- What a system call returns: an `errno`, or its result. -/
abbrev Sys.Res : Sys → Type
  | .msgget _ => Except Int Int
  | .msgsnd _ _ _ _ => Except Int Unit
  | .msgrcv _ _ _ _ => Except Int (Int × Bytes)

/-- A queue with its identifier, the oldest message first. -/
structure Queue where
  msqid : Int
  messages : List Message
  deriving Repr

/-- The messages of the queue, if it exists. -/
def messages : Option Queue → List Message
  | none => []
  | some q => q.messages

/-- The system calls. Any of them can also fail for a reason outside the queue, such as a
permission, a limit or a signal. -/
inductive QueueSem : Option Queue → (op : Sys) → op.Res → Option Queue → Prop where
  | found {q : Queue} {flg : BitVec 32} (open' : flg &&& IPC_CREAT = 0 ∨ flg &&& IPC_EXCL = 0) :
      QueueSem (some q) (.msgget flg) (Except.ok q.msqid) (some q)
  | taken {q : Queue} {flg : BitVec 32} (creat : flg &&& IPC_CREAT ≠ 0)
      (excl : flg &&& IPC_EXCL ≠ 0) :
      QueueSem (some q) (.msgget flg) (Except.error EEXIST) (some q)
  | missing {flg : BitVec 32} (open' : flg &&& IPC_CREAT = 0) :
      QueueSem none (.msgget flg) (Except.error ENOENT) none
  | created {flg : BitVec 32} {msqid : Int} (creat : flg &&& IPC_CREAT ≠ 0) (pos : 0 ≤ msqid) :
      QueueSem none (.msgget flg) (Except.ok msqid) (some { msqid, messages := [] })
  | denied {w : Option Queue} {flg : BitVec 32} {errno : Int} (ne₁ : errno ≠ ENOENT)
      (ne₂ : errno ≠ EEXIST) : QueueSem w (.msgget flg) (Except.error errno) w
  | sent {q : Queue} {mtype : Int} {mtext : Bytes} {flg : BitVec 32} (pos : 0 < mtype) :
      QueueSem (some q) (.msgsnd q.msqid mtype mtext flg) (Except.ok ())
        (some { q with messages := q.messages ++ [⟨mtype, mtext⟩] })
  | notSent {w : Option Queue} {msqid mtype : Int} {mtext : Bytes} {flg : BitVec 32}
      {errno : Int} : QueueSem w (.msgsnd msqid mtype mtext flg) (Except.error errno) w
  | received {q : Queue} {msgsz : Nat} {msgtyp : Int} {flg : BitVec 32} {m : Message}
      {rest : List Message} (selected : select q.messages msgtyp = some (m, rest))
      (room : m.mtext.length ≤ msgsz ∨ flg &&& MSG_NOERROR ≠ 0) :
      QueueSem (some q) (.msgrcv q.msqid msgsz msgtyp flg)
        (Except.ok (m.mtype, m.mtext.take msgsz)) (some { q with messages := rest })
  | notReceived {w : Option Queue} {msqid : Int} {msgsz : Nat} {msgtyp : Int} {flg : BitVec 32}
      {errno : Int} : QueueSem w (.msgrcv msqid msgsz msgtyp flg) (Except.error errno) w

/-- Nothing changes the identifier of a queue. -/
theorem QueueSem.keeps {q : Queue} {op : Sys} {r : op.Res} {w' : Option Queue}
    (hsem : QueueSem (some q) op r w') : ∃ q', w' = some q' ∧ q'.msqid = q.msqid := by
  cases hsem <;> exact ⟨_, rfl, rfl⟩

/-- A successful `msgget` returns the identifier of the queue. -/
theorem QueueSem.msgget_ok {w w' : Option Queue} {flg : BitVec 32} {msqid : Int}
    (hsem : QueueSem w (.msgget flg) (Except.ok msqid) w') :
    ∃ q, w' = some q ∧ q.msqid = msqid := by
  generalize hr : (Except.ok msqid : Except Int Int) = r at hsem
  cases hsem with
  | @found q _ open' =>
    cases hr
    exact ⟨q, rfl, rfl⟩
  | created creat pos =>
    cases hr
    exact ⟨_, rfl, rfl⟩
  | _ => cases hr

/-- A performed system call. -/
abbrev SysAct := Act Sys Sys.Res

/-- The message an operation appended. -/
def SysAct.appended : SysAct → Option Message
  | ⟨.msgsnd _ mtype mtext _, .ok _⟩ => some ⟨mtype, mtext⟩
  | _ => none

/-- The message an operation removed, as it was received. -/
def SysAct.removed : SysAct → Option Message
  | ⟨.msgrcv _ _ _ _, .ok (mtype, mtext)⟩ => some ⟨mtype, mtext⟩
  | _ => none

/-! ## §3 Accounting -/

/-- The messages of a type, in order. -/
def ofType (t : Int) (q : List Message) : List Message := q.filter (·.mtype = t)

theorem ofType_append (t : Int) (q q' : List Message) :
    ofType t (q ++ q') = ofType t q ++ ofType t q' := List.filter_append ..

/-- For each type, what was in the queue and what was sent, in this order, is what was received
and what is in the queue, in this order. -/
def Accounted (initial sent received now : List Message) : Prop :=
  ∀ t, ofType t initial ++ ofType t sent = ofType t received ++ ofType t now

theorem accounted_start (initial : List Message) : Accounted initial [] [] initial :=
  fun t => by simp [ofType]

theorem Accounted.send {initial sent received now : List Message}
    (h : Accounted initial sent received now) (m : Message) :
    Accounted initial (sent ++ [m]) received (now ++ [m]) := by
  intro t
  rw [ofType_append, ofType_append, ← List.append_assoc, h t, List.append_assoc]

theorem Accounted.receive {initial sent received now rest : List Message} {msgtyp : Int}
    {m : Message} (h : Accounted initial sent received now)
    (hselect : select now msgtyp = some (m, rest)) :
    Accounted initial sent (received ++ [m]) rest := by
  intro t
  obtain ⟨before, after, rfl, rfl, hbefore⟩ := select_split hselect
  rw [h t, ofType_append t received, List.append_assoc]
  congr 1
  have hcons : ofType t (m :: after) = ofType t [m] ++ ofType t after := ofType_append t [m] after
  rw [ofType_append, ofType_append, hcons]
  -- For its own type the message was the first one, for the others it does not count.
  by_cases hm : m.mtype = t
  · have hnone : ofType t before = [] := by
      rw [ofType, List.filter_eq_nil_iff]
      intro x hx
      simpa only [decide_eq_true_eq, ← hm] using hbefore x hx
    rw [hnone, List.nil_append, List.nil_append]
  · have hnone : ofType t [m] = [] := by simp [ofType, hm]
    rw [hnone, List.nil_append, List.nil_append]

/-- Accounting for each type accounts for all messages. -/
theorem Accounted.perm {initial sent received now : List Message}
    (h : Accounted initial sent received now) : (initial ++ sent).Perm (received ++ now) := by
  rw [List.perm_iff_count]
  intro m
  -- Each message is counted among those of its type.
  have hcount : ∀ q : List Message, (ofType m.mtype q).count m = q.count m := fun q =>
    List.count_filter (by simp)
  rw [← hcount (initial ++ sent), ← hcount (received ++ now), ofType_append, ofType_append,
    h m.mtype]

/-- Accounting is about the types and the order only. -/
theorem Accounted.map {initial sent received now : List Message}
    (h : Accounted initial sent received now) {f : Message → Message}
    (hf : ∀ m, (f m).mtype = m.mtype) :
    Accounted (initial.map f) (sent.map f) (received.map f) (now.map f) := by
  intro t
  have hmap : ∀ q : List Message, ofType t (q.map f) = (ofType t q).map f := by
    intro q
    have hcomp : (fun m : Message => decide (m.mtype = t)) ∘ f = fun m => decide (m.mtype = t) := by
      funext m
      simp only [Function.comp, hf]
    rw [ofType, List.filter_map, hcomp, ofType]
  rw [hmap, hmap, hmap, hmap, ← List.map_append, ← List.map_append, h t]

/-- Every system call keeps the accounts, if what is received was not cut. -/
theorem QueueSem.accounted {initial sent received : List Message} {w w' : Option Queue} {a : SysAct}
    (hsem : QueueSem w a.op a.res w')
    (hfit : ∀ msqid msgsz msgtyp flg, a.op = .msgrcv msqid msgsz msgtyp flg →
      ∀ m ∈ messages w, m.mtext.length ≤ msgsz)
    (h : Accounted initial sent received (messages w)) :
    Accounted initial (sent ++ a.appended.toList) (received ++ a.removed.toList) (messages w') := by
  obtain ⟨op, r⟩ := a
  dsimp only at hsem hfit
  cases hsem with
  | @sent q mtype mtext flg pos =>
    simpa [SysAct.appended, SysAct.removed, messages] using h.send ⟨mtype, mtext⟩
  | @received q msgsz msgtyp flg m rest selected room =>
    -- The message fits the buffer, so it is received as it is.
    have hwhole : m.mtext.take msgsz = m.mtext :=
      List.take_of_length_le (hfit q.msqid msgsz msgtyp flg rfl m (mem_of_select selected))
    have hremoved : SysAct.removed ⟨.msgrcv q.msqid msgsz msgtyp flg,
        Except.ok (m.mtype, m.mtext.take msgsz)⟩ = some m := by
      simp only [SysAct.removed, hwhole]
    simpa [SysAct.appended, hremoved, messages] using h.receive selected
  | _ => simpa [SysAct.appended, SysAct.removed, messages] using h

end MyLua.Foundation
