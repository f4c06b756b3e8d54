import MyLua.Foundation.Pool
import MyLua.Message.Delivery
import MyLua.Service.Deal

/-!
# Ownership Among the Running Scripts

What a running script owns and owes, from the operations it has performed: the number it got, what
it stored under it, whether it closed it, and whether a message it sent is not yet made up for by
one it received. `contract` says what a script may do in such a stage and what it may rely on. The
contract is upheld in the process, whatever the other threads do.

## Main results

- `StoreInv.upheld`: the numbers and values of the main frame belong to the scripts that hold them.
- `QueueInv.upheld`: the messages in the queue, and how many there are.
- `contract_upheld`: the two together.
-/

namespace MyLua.Service

open MyLua.Foundation
open MyLua.MainFrame (Frame Node Effect Outcome valueAt putAt stamp)

variable {Num : Type} [LuaInteger Num]

/-! ## §1 Texts -/

/-- What `main` reads back under its number, as a text. -/
def recordLine (n : Int) : Bytes :=
  ascii "SeqNoPP=" ++ Message.decimal n ++
    ascii "&g=sex&g1=sex1&g2=sex2&g3=sex3&None=none&"

/-- The text `main` sends. -/
def record (n : Int) : Bytes := tripled (tripled (tripled (tripled (tripled (recordLine n)))))

/-- The message of a script that holds one of the numbers. -/
def IsRecord (workers : Nat) (m : Message) : Prop :=
  ∃ n : Int, 1 ≤ n ∧ n ≤ workers ∧ m = ⟨3, Message.frame (record n)⟩

/-- A message that was in the queue at the start, or one of those the scripts sent. -/
def Known (workers : Nat) (queue : Option Queue) (sent : List Message) (m : Message) : Prop :=
  m ∈ messages queue ∨ IsRecord workers m ∧ m ∈ sent

/-! ## §2 Stages -/

/-- How far a script is: the number it got and whether it closed it; what it stored, and whether
the number has an entry; and whether it sent a message and received none since. -/
structure Stage where
  number : Option Int
  closed : Bool
  content : Bytes → Bytes → Option Bytes
  touched : Bool
  owes : Bool

/-- Before the first operation. -/
def Stage.idle : Stage := ⟨none, false, fun _ _ => none, false, false⟩

/-- The number that is held. -/
def Stage.held (s : Stage) : Option Int := if s.closed then none else s.number

/-- The operations of the main frame that are allowed. -/
def Stage.mayCall (s : Stage) : MainFrame.Op → Prop
  | .stackSeqno => s.held = none
  | .get n _ _ => s.held = some n
  | .set n _ _ _ => s.held = some n
  | .cls n => s.held = some n ∧ s.touched = true
  | _ => False

/-- What they show. -/
def Stage.getsFrom (workers : Nat) (s : Stage) : MainFrame.Op → Outcome → Prop
  | .stackSeqno, r => ∃ n : Int, r = .number n ∧ 1 ≤ n ∧ n ≤ workers
  | .get _ k1 k2, r => r = .text (cut ((s.content k1 k2).getD []))
  | _, _ => True

/-- The stage after an operation of the main frame. -/
def Stage.afterCall (s : Stage) : MainFrame.Op → Outcome → Stage
  | .stackSeqno, .number n => { Stage.idle with number := some n, owes := s.owes }
  | .get _ _ _, _ => { s with touched := true }
  | .set _ k1 k2 v, _ =>
    { s with content := fun k1' k2' => if k1' = k1 ∧ k2' = k2 then some v else s.content k1' k2',
             touched := true }
  | .cls _, _ => { s with closed := true }
  | _, _ => s

/-- The system calls that are allowed. -/
def Stage.mayPerform (workers : Nat) (s : Stage) : Sys → Prop
  | .msgsnd _ mtype mtext _ => s.owes = false ∧ IsRecord workers ⟨mtype, mtext⟩
  | _ => True

/-- What they return: a script that sent a message does not create the queue, what is sent is one of
the messages of the list, and what is received is known. -/
def Stage.getsBack (workers : Nat) (queue : Option Queue) (sent : List Message) (s : Stage) :
    (op : Sys) → op.Res → Prop
  | .msgget flg, .ok _ => flg = Message.createFlag → s.owes = false
  | .msgsnd _ mtype mtext _, .ok _ => ⟨mtype, mtext⟩ ∈ sent
  | .msgrcv _ msgsz _ _, .ok (mtype, mtext) =>
    ∃ m, Known workers queue sent m ∧ mtype = m.mtype ∧ mtext = m.mtext.take msgsz
  | _, _ => True

/-- The stage after a system call. -/
def Stage.afterSys (s : Stage) : (op : Sys) → op.Res → Stage
  | .msgsnd _ _ _ _, .ok _ => { s with owes := true }
  | .msgrcv _ _ _ _, .ok _ => { s with owes := false }
  | _, _ => s

/-- The contract of a script, in a process whose scripts send the messages of the list. -/
def contract (workers : Nat) (queue : Option Queue) (sent : List Message) :
    Contract (ScriptOp Num) ScriptOp.Res Stage where
  may s
    | .frame call => s.mayCall call.op
    | .queue op => s.mayPerform workers op
  gets s
    | .frame call, r => s.getsFrom workers call.op r
    | .queue op, r => s.getsBack workers queue sent op r
  next s
    | .frame call, r => s.afterCall call.op r
    | .queue op, r => s.afterSys op r

/-! ## §3 Held numbers -/

/-- The numbers the scripts hold. -/
def heldBy (ss : List Stage) : List Int := ss.filterMap Stage.held

variable {before after : List Stage} {s s' : Stage}

theorem heldBy_focus (before : List Stage) (s : Stage) (after : List Stage) :
    (heldBy (before ++ s :: after)).Perm (s.held.toList ++ heldBy (before ++ after)) := by
  have hperm : (before ++ s :: after).Perm (s :: (before ++ after)) := List.perm_middle
  refine (hperm.filterMap Stage.held).trans ?_
  cases hs : s.held <;> simp [heldBy, hs]

/-- A script that goes on holding the same number changes nothing for the others. -/
theorem heldBy_congr (h : s'.held = s.held) :
    heldBy (before ++ s' :: after) = heldBy (before ++ s :: after) := by
  simp only [heldBy, List.filterMap_append, List.filterMap_cons, h]

theorem mem_heldBy {ss : List Stage} {n : Int} : n ∈ heldBy ss ↔ ∃ t ∈ ss, t.held = some n :=
  List.mem_filterMap

/-- Every script among all of them is this one or one of the others. -/
theorem mem_focus {t : Stage} (ht : t ∈ before ++ s :: after) :
    t = s ∨ t ∈ before ++ after := by
  rcases List.mem_append.mp ht with ht | ht
  · exact .inr (List.mem_append_left _ ht)
  · rcases List.mem_cons.mp ht with rfl | ht
    · exact .inl rfl
    · exact .inr (List.mem_append_right _ ht)

theorem mem_of_mem_others {t : Stage} (ht : t ∈ before ++ after) : t ∈ before ++ s :: after := by
  rcases List.mem_append.mp ht with ht | ht
  · exact List.mem_append_left _ ht
  · exact List.mem_append_right _ (List.mem_cons_of_mem _ ht)

theorem mem_self : s ∈ before ++ s :: after := List.mem_append_right _ List.mem_cons_self

/-! ## §4 The main frame -/

/-- The values under the number of a stage are those it stored, and the number has an entry if the
stage made one. -/
def Stage.Owns (s : Stage) (m : StdMap Int Node) : Prop :=
  ∀ n, s.held = some n →
    (∀ k1 k2, valueAt m n k1 k2 = (s.content k1 k2).getD []) ∧ (s.touched = true → m.count n ≠ 0)

/-- The numbers and values of the main frame, with the scripts that run. -/
structure StoreInv (workers : Nat) (f : Frame) (ss : List Stage) : Prop where
  few : ss.length ≤ workers
  pool : ∃ p : Pool, p.Valid ∧ p.stack = f.gStseq ∧ p.out.Perm (heldBy ss) ∧ p.next ≤ workers + 1
  entries : ∀ n, f.gMapVal.count n ≠ 0 → n ∈ heldBy ss
  own : ∀ t ∈ ss, t.Owns f.gMapVal

variable {workers : Nat} {f f' : Frame} {now : Int} {r : Outcome}

theorem StoreInv.nodup {ss : List Stage} (h : StoreInv workers f ss) : (heldBy ss).Nodup := by
  obtain ⟨p, hvalid, -, hout, -⟩ := h.pool
  exact hout.nodup_iff.mp (Pool.nodup_out hvalid)

/-- No other script holds the number. -/
theorem StoreInv.notMem_others (h : StoreInv workers f (before ++ s :: after)) {n : Int}
    (hs : s.held = some n) : n ∉ heldBy (before ++ after) := by
  -- The held numbers are those that are out, each of them once.
  have hnodup := (heldBy_focus before s after).nodup_iff.mp h.nodup
  rw [hs] at hnodup
  exact (List.nodup_cons.mp hnodup).1

/-- What happens under one number does not matter to the owner of another one. -/
theorem Stage.Owns.frame {m m' : StdMap Int Node} {n : Int} (h : s.Owns m) (hne : s.held ≠ some n)
    (hvalue : ∀ n' k1 k2, n' ≠ n → valueAt m' n' k1 k2 = valueAt m n' k1 k2)
    (hcount : ∀ n', n' ≠ n → m'.count n' = m.count n') : s.Owns m' := by
  intro n' hn'
  -- The owner holds another number.
  have hn : n' ≠ n := fun heq => hne (heq ▸ hn')
  obtain ⟨hcontent, hentry⟩ := h n' hn'
  refine ⟨fun k1 k2 => ?_, fun ht => ?_⟩
  · rw [hvalue n' k1 k2 hn, hcontent]
  · rw [hcount n' hn]
    exact hentry ht

/-- The owner of a number changes what is stored under it. -/
theorem StoreInv.change {m' : StdMap Int Node} {n : Int}
    (h : StoreInv workers f (before ++ s :: after)) (hs : s.held = some n) (hs' : s'.held = some n)
    (hvalue : ∀ n' k1 k2, n' ≠ n → valueAt m' n' k1 k2 = valueAt f.gMapVal n' k1 k2)
    (hcount : ∀ n', n' ≠ n → m'.count n' = f.gMapVal.count n') (hown : s'.Owns m') :
    StoreInv workers { f with gMapVal := m' } (before ++ s' :: after) := by
  have hheld : heldBy (before ++ s' :: after) = heldBy (before ++ s :: after) :=
    heldBy_congr (hs'.trans hs.symm)
  have hothers := h.notMem_others hs
  refine ⟨by simpa using h.few, by rw [hheld]; exact h.pool, ?_, ?_⟩
  · -- An entry is that of the number or was there before.
    intro n' hn'
    rw [hheld]
    by_cases heq : n' = n
    · subst heq
      exact mem_heldBy.mpr ⟨s, mem_self, hs⟩
    · rw [hcount n' heq] at hn'
      exact h.entries n' hn'
  · intro t ht
    rcases mem_focus ht with rfl | ht
    · exact hown
    · -- Nobody else holds the number, so the others own what they owned.
      apply (h.own t (mem_of_mem_others ht)).frame _ hvalue hcount
      intro hnt
      exact hothers (mem_heldBy.mpr ⟨t, ht, hnt⟩)

/-- A number is handed out to a script that holds none. -/
theorem StoreInv.stackSeqno (h : StoreInv workers f (before ++ s :: after))
    (hw : workers < 2 ^ 31 - 1) (hs : s.held = none) (heff : Effect now f .stackSeqno r f') :
    s.getsFrom workers .stackSeqno r ∧
      StoreInv workers f' (before ++ s.afterCall .stackSeqno r :: after) := by
  obtain ⟨hfew, ⟨p, hvalid, hstack, hout, hnext⟩, hentries, hown⟩ := h
  cases heff with
  | @stack n rest top =>
    have hfocus := heldBy_focus before s after
    rw [hs] at hfocus
    have hheld : (s.afterCall .stackSeqno (.number n)).held = some n := rfl
    have hfocus' := heldBy_focus before (s.afterCall .stackSeqno (.number n)) after
    rw [hheld] at hfocus'
    -- The number on top is what the pool hands out.
    obtain ⟨htake, hstack'⟩ := Pool.stack_take (hstack.trans top)
    have hvalid' := Pool.take_valid hvalid
    have hout' : p.take.2.out.Perm
        (heldBy (before ++ s.afterCall .stackSeqno (.number n) :: after)) := by
      rw [Pool.out_take, htake]
      exact ((hout.trans hfocus).cons n).trans hfocus'.symm
    -- Every thread holds at most one number, so there are at most `workers` of them.
    have hlen : p.take.2.out.length ≤ workers := by
      rw [hout'.length_eq]
      refine (List.length_filterMap_le _ _).trans ?_
      simpa using hfew
    have hcases := Pool.take_cases hvalid
    rw [htake] at hcases
    have hmem : n ∈ p.take.2.free ++ p.take.2.out := by
      rw [Pool.out_take, htake]
      simp
    obtain ⟨hpos, -⟩ := (hvalid'.mem_iff n).mp hmem
    -- A fresh number is only handed out when all smaller ones are held.
    have hle : n ≤ workers := by
      rcases hcases with ⟨hlt, -⟩ | ⟨heq, -, hcount⟩
      · omega
      · omega
    have hnew : n ∉ heldBy (before ++ s :: after) := by
      intro hn
      exact Pool.take_notMem_out hvalid (htake ▸ hout.mem_iff.mpr hn)
    refine ⟨⟨n, rfl, hpos, hle⟩, by simpa using hfew, ⟨p.take.2, hvalid', ?_, hout', ?_⟩, ?_, ?_⟩
    · -- The next fresh number is an `int`, so the increment does not wrap.
      rw [hstack', MyLua.Foundation.wrapInt_of_isInt ⟨by omega, by omega⟩]
    · rcases hcases with ⟨-, heq⟩ | ⟨-, heq, hcount⟩
      · omega
      · omega
    · intro n' hn'
      have hold := hfocus.mem_iff.mp (hentries n' hn')
      -- Handing out a number makes no entry.
      exact hfocus'.mem_iff.mpr (List.mem_cons_of_mem _ hold)
    · intro t ht
      rcases mem_focus ht with rfl | ht
      · -- Nothing is stored under a number that nobody holds.
        intro n' hn'
        obtain rfl : n = n' := Option.some.inj hn'
        have hnone : f.gMapVal.count n = 0 := by
          by_contra hcount
          exact hnew (hentries n hcount)
        exact ⟨fun k1 k2 => MainFrame.valueAt_of_count_eq_zero hnone k1 k2, fun ht => by cases ht⟩
      · exact hown t (mem_of_mem_others ht)

/-- The number of a script is closed. -/
theorem StoreInv.cls {n : Int} (h : StoreInv workers f (before ++ s :: after))
    (hs : s.held = some n) (ht : s.touched = true) (heff : Effect now f (.cls n) r f') :
    StoreInv workers f' (before ++ s.afterCall (.cls n) r :: after) := by
  have hothers := h.notMem_others hs
  obtain ⟨hfew, ⟨p, hvalid, hstack, hout, hnext⟩, hentries, hown⟩ := h
  have hpresent : f.gMapVal.count n ≠ 0 := (hown s mem_self n hs).2 ht
  cases heff with
  -- The script stored under its number, so the call does close it.
  | refused absent => exact absurd absent hpresent
  | closed present =>
    have hfocus := heldBy_focus before s after
    rw [hs] at hfocus
    have hheld : (s.afterCall (.cls n) .nothing).held = none := rfl
    have hfocus' := heldBy_focus before (s.afterCall (.cls n) .nothing) after
    rw [hheld] at hfocus'
    -- The pool gets back a number that was out.
    have hn : n ∈ p.out := hout.mem_iff.mpr (hfocus.mem_iff.mpr List.mem_cons_self)
    have hout' : (p.give n).out.Perm
        (heldBy (before ++ s.afterCall (.cls n) .nothing :: after)) := by
      have herase := (hout.trans hfocus).erase n
      simp only [Option.toList_some, List.singleton_append, List.erase_cons_head] at herase
      exact herase.trans hfocus'.symm
    refine ⟨by simpa using hfew, ⟨p.give n, Pool.give_valid hvalid hn, ?_, hout', hnext⟩, ?_, ?_⟩
    · rw [Pool.stack_give, hstack]
    · intro n' hn'
      rw [StdMap.count_erase] at hn'
      split at hn'
      · exact absurd rfl hn'
      · rename_i hne
        -- Only the entry of the number goes; the others belong to scripts that still hold theirs.
        have hold := hfocus.mem_iff.mp (hentries n' hn')
        exact hfocus'.mem_iff.mpr ((List.mem_cons.mp hold).resolve_left hne)
    · intro t ht
      rcases mem_focus ht with rfl | ht
      · intro n' hn'
        cases hn'
      · refine (hown t (mem_of_mem_others ht)).frame (n := n) ?_ ?_ ?_
        · intro hnt
          exact hothers (mem_heldBy.mpr ⟨t, ht, hnt⟩)
        · intro n' k1 k2 hne
          rw [MainFrame.valueAt_erase, if_neg hne]
        · intro n' hne
          rw [StdMap.count_erase, if_neg hne]

/-- The holder of a number reads under it. -/
theorem StoreInv.get {n : Int} {k1 k2 : Bytes} (h : StoreInv workers f (before ++ s :: after))
    (hs : s.held = some n) (heff : Effect now f (.get n k1 k2) r f') :
    s.getsFrom workers (.get n k1 k2) r ∧
      StoreInv workers f' (before ++ s.afterCall (.get n k1 k2) r :: after) := by
  obtain ⟨hcontent, -⟩ := h.own s mem_self n hs
  cases heff with
  | get =>
    have hs' : (s.afterCall (.get n k1 k2) .nothing).held = some n := hs
    -- What is read is what the script stored there last.
    refine ⟨congrArg (fun v => Outcome.text (cut v)) (hcontent k1 k2), ?_⟩
    apply h.change hs hs'
    · intro n' k1' k2' hne
      rw [MainFrame.valueAt_putAt, if_neg fun hkey => hne hkey.1]
    · intro n' hne
      rw [MainFrame.count_putAt, if_neg hne]
    · -- A read makes an entry, with the value it found.
      intro n' hn'
      obtain rfl : n = n' := Option.some.inj (hs.symm.trans hn')
      refine ⟨fun k1' k2' => ?_, fun _ => ?_⟩
      · rw [MainFrame.valueAt_putAt]
        split
        · rename_i hkey
          rw [hkey.2.1, hkey.2.2]
          exact hcontent k1 k2
        · exact hcontent k1' k2'
      · rw [MainFrame.count_putAt, if_pos rfl]
        exact one_ne_zero

/-- The holder of a number stores under it. -/
theorem StoreInv.set {n : Int} {k1 k2 v : Bytes} (h : StoreInv workers f (before ++ s :: after))
    (hs : s.held = some n) (heff : Effect now f (.set n k1 k2 v) r f') :
    StoreInv workers f' (before ++ s.afterCall (.set n k1 k2 v) r :: after) := by
  obtain ⟨hcontent, -⟩ := h.own s mem_self n hs
  cases heff with
  | set =>
    have hs' : (s.afterCall (.set n k1 k2 v) .nothing).held = some n := hs
    apply h.change hs hs'
    · intro n' k1' k2' hne
      rw [MainFrame.valueAt_putAt, if_neg fun hkey => hne hkey.1, MainFrame.valueAt_stamp]
    · intro n' hne
      rw [MainFrame.count_putAt, if_neg hne, MainFrame.count_stamp_of_ne now _ hne]
    · intro n' hn'
      obtain rfl : n = n' := Option.some.inj (hs.symm.trans hn')
      refine ⟨fun k1' k2' => ?_, fun _ => ?_⟩
      · -- The value under the two keys is the new one, the others are as before.
        rw [MainFrame.valueAt_putAt, MainFrame.valueAt_stamp]
        simp only [Stage.afterCall, true_and]
        split
        · rfl
        · exact hcontent k1' k2'
      · rw [MainFrame.count_putAt, if_pos rfl]
        exact one_ne_zero

/-- Every operation a script may perform on the main frame shows what the script may rely on, and
leaves the numbers and values with their owners. -/
theorem StoreInv.upheld {op : MainFrame.Op} (h : StoreInv workers f (before ++ s :: after))
    (hw : workers < 2 ^ 31 - 1) (hmay : s.mayCall op) (heff : Effect now f op r f') :
    s.getsFrom workers op r ∧ StoreInv workers f' (before ++ s.afterCall op r :: after) := by
  cases op with
  | stackSeqno => exact h.stackSeqno hw hmay heff
  | cls n => exact ⟨trivial, h.cls hmay.1 hmay.2 heff⟩
  | get n k1 k2 => exact h.get hmay heff
  | set n k1 k2 v => exact ⟨trivial, h.set hmay heff⟩
  | counterSeqno => exact hmay.elim
  | rejected => exact hmay.elim

/-- A change of what a script owes does not matter to the main frame. -/
theorem StoreInv.congr (h : StoreInv workers f (before ++ s :: after)) (hheld : s'.held = s.held)
    (hown : s.Owns f.gMapVal → s'.Owns f.gMapVal) :
    StoreInv workers f (before ++ s' :: after) := by
  have heq : heldBy (before ++ s' :: after) = heldBy (before ++ s :: after) := heldBy_congr hheld
  refine ⟨by simpa using h.few, by rw [heq]; exact h.pool, by rw [heq]; exact h.entries, ?_⟩
  intro t ht
  rcases mem_focus ht with rfl | ht
  · exact hown (h.own s mem_self)
  · exact h.own t (mem_of_mem_others ht)

/-! ## §5 The queue -/

/-- The messages in the queue. There are no more of them than at the start, but for those of
scripts that sent one and received none since, running or ended. -/
structure QueueInv (workers : Nat) (queue : Option Queue) (sent : List Message) (missed : Nat)
    (q : Option Queue) (ss : List Stage) : Prop where
  known : ∀ m ∈ messages q, Known workers queue sent m
  backlog : (messages q).length ≤ (messages queue).length + ss.countP Stage.owes + missed
  present : ∀ t ∈ ss, t.owes = true → q ≠ none

variable {queue q q' : Option Queue} {sent : List Message} {missed : Nat}

theorem countP_focus (before : List Stage) (s : Stage) (after : List Stage) :
    (before ++ s :: after).countP Stage.owes =
      (before ++ after).countP Stage.owes + if s.owes then 1 else 0 := by
  rw [List.perm_middle.countP_eq, List.countP_cons]

/-- Every system call a script may perform returns what the script may rely on, and keeps the
account of the messages. -/
theorem QueueInv.upheld {op : Sys} {r : op.Res}
    (h : QueueInv workers queue sent missed q (before ++ s :: after))
    (hmay : s.mayPerform workers op) (hsem : QueueSem q op r q')
    (hsent : ∀ m, SysAct.appended ⟨op, r⟩ = some m → m ∈ sent) :
    s.getsBack workers queue sent op r ∧
      QueueInv workers queue sent missed q' (before ++ s.afterSys op r :: after) := by
  obtain ⟨hknown, hbacklog, hpresent⟩ := h
  cases hsem with
  | found open' =>
    refine ⟨fun hflag => ?_, hknown, hbacklog, hpresent⟩
    -- The second `msgget` of a call does not find a queue.
    subst hflag
    exact absurd open' (by decide)
  -- A call that fails changes nothing, and the script may rely on nothing.
  | taken | missing | denied | notSent | notReceived => exact ⟨trivial, hknown, hbacklog, hpresent⟩
  | created creat pos =>
    refine ⟨fun _ => ?_, nofun, ?_, ?_⟩
    · by_contra howes
      -- A script that sent a message finds the queue that it sent it to.
      exact hpresent s mem_self (by simpa using howes) rfl
    · exact Nat.zero_le _
    · exact fun t ht howes => absurd rfl (hpresent t ht howes)
  | @sent q mtype mtext flg pos =>
    -- One more message, and one more script that owes one.
    obtain ⟨howes, hrecord⟩ := hmay
    have hmem := hsent _ rfl
    refine ⟨hmem, ?_, ?_, fun _ _ _ => by simp⟩
    · intro m hm
      rcases List.mem_append.mp hm with hm | hm
      · exact hknown m hm
      · rw [List.mem_singleton.mp hm]
        exact .inr ⟨hrecord, hmem⟩
    · have hlonger : messages (some { q with messages := q.messages ++ [⟨mtype, mtext⟩] }) =
          messages (some q) ++ [⟨mtype, mtext⟩] := rfl
      rw [countP_focus, howes] at hbacklog
      rw [countP_focus, hlonger]
      simp only [Stage.afterSys, List.length_append, List.length_singleton, if_true,
        Bool.false_eq_true, if_false] at hbacklog ⊢
      omega
  | @received q msgsz msgtyp flg m rest selected room =>
    -- One message less, and at most one script less that owes one.
    refine ⟨⟨m, hknown m (mem_of_select selected), rfl, rfl⟩, ?_, ?_, ?_⟩
    · exact fun m' hm' => hknown m' (mem_of_mem_rest selected hm')
    · obtain ⟨front, back, hq, rfl, -⟩ := select_split selected
      have hfull : messages (some q) = front ++ m :: back := hq
      have hleft : messages (some { q with messages := front ++ back }) = front ++ back := rfl
      have howes : (if s.owes then 1 else 0) ≤ 1 := by split <;> decide
      rw [countP_focus, hfull] at hbacklog
      rw [countP_focus, hleft]
      simp only [Stage.afterSys, List.length_append, List.length_cons, Bool.false_eq_true,
        if_false] at hbacklog ⊢
      omega
    · exact fun _ _ _ => by simp

/-! ## §6 The contract -/

/-- The main frame and the queue, with the scripts that run. -/
def SharedInv (workers : Nat) (queue : Option Queue) (sent : List Message) (missed : Nat)
    (w : Shared) (ss : List Stage) : Prop :=
  StoreInv workers w.frame ss ∧ QueueInv workers queue sent missed w.queue ss

/-- An operation that sends, if it sends, one of the messages of the list. -/
def SemOf (sent : List Message) (w : Shared) (op : ScriptOp Num) (r : op.Res) (w' : Shared) :
    Prop :=
  Sem w op r w' ∧ ∀ m, sentBy ⟨op, r⟩ = some m → m ∈ sent

/-- Operations of the main frame leave what a script owes. -/
theorem owes_afterCall (s : Stage) (op : MainFrame.Op) (r : Outcome) :
    (s.afterCall op r).owes = s.owes := by
  cases op <;> cases r <;> rfl

/-- System calls leave what a script owns. -/
theorem afterSys_owns (s : Stage) (op : Sys) (r : op.Res) :
    (s.afterSys op r).held = s.held ∧ ∀ m, s.Owns m → (s.afterSys op r).Owns m := by
  cases op with
  | msgget flg => exact ⟨rfl, fun _ h => h⟩
  | msgsnd msqid mtype mtext flg => cases r <;> exact ⟨rfl, fun _ h => h⟩
  | msgrcv msqid msgsz msgtyp flg => cases r <;> exact ⟨rfl, fun _ h => h⟩

/-- The contract is upheld: whatever the scripts of the other threads do, a script that keeps it
gets what it relies on. -/
theorem contract_upheld (hw : workers < 2 ^ 31 - 1) (queue : Option Queue) (sent : List Message)
    (missed : Nat) :
    (contract workers queue sent : Contract (ScriptOp Num) ScriptOp.Res Stage).Upheld (SemOf sent)
      (SharedInv workers queue sent missed) := by
  rintro w w' before s after op r ⟨hstore, hqueue⟩ hmay ⟨hsem, hsent⟩
  cases hsem with
  | @frame call now r f' runs =>
    -- A call of the main frame leaves the queue and what the scripts owe.
    rw [MainFrame.Call.run_eq_exec] at runs
    obtain ⟨hgets, hstore'⟩ := hstore.upheld hw hmay (MainFrame.exec_cases runs)
    have howes : ∀ t, t ∈ before ++ s.afterCall call.op r :: after → t.owes = true →
        w.queue ≠ none := by
      intro t ht ht'
      rcases mem_focus ht with rfl | ht
      · exact hqueue.present s mem_self (by rw [← owes_afterCall s call.op r]; exact ht')
      · exact hqueue.present t (mem_of_mem_others ht) ht'
    refine ⟨hgets, hstore', hqueue.known, ?_, howes⟩
    have hcount := hqueue.backlog
    rw [countP_focus] at hcount
    show _ ≤ _ + List.countP Stage.owes (before ++ s.afterCall call.op r :: after) + _
    rw [countP_focus, owes_afterCall]
    exact hcount
  | @queue op r q' performs =>
    -- A system call leaves the main frame and what the scripts own.
    obtain ⟨hgets, hqueue'⟩ := hqueue.upheld hmay performs hsent
    obtain ⟨hheld, howns⟩ := afterSys_owns s op r
    exact ⟨hgets, hstore.congr hheld (howns _), hqueue'⟩

end MyLua.Service
