import MyLua.MainFrame.FreeList

/-!
# Clients and the Numbers They Hold

Who holds which number follows from the history: `get_seqno` gives a number to its caller, in
one of its two modes, and `cls_seqno` takes it away again.

## Main results

- `issued_perm`: the stack numbers held are the issued ones.
- `closesIssued_of_closesHeld`: clients that close what they hold close issued numbers.
-/

namespace MyLua.MainFrame

open MyLua.Foundation

variable {Num Client : Type} [LuaNumber Num] [DecidableEq Client]

/-- The modes of `get_seqno`. -/
inductive Mode where
  | stack
  | counter
  deriving DecidableEq, Repr

/-- A number a client obtained and has not closed. -/
structure Holding (Client : Type) where
  client : Client
  mode : Mode
  number : Int
  deriving DecidableEq

/-- The holdings after an operation of a client. A client that holds a number in both modes
closes the one from the stack first. -/
def holdingsAfter (client : Client) (op : Op) (r : Outcome) (hs : List (Holding Client)) :
    List (Holding Client) :=
  match op, r with
  | .stackSeqno, .number n => ⟨client, .stack, n⟩ :: hs
  | .counterSeqno, .number n => ⟨client, .counter, n⟩ :: hs
  | .cls n, .nothing =>
    if ⟨client, .stack, n⟩ ∈ hs then hs.erase ⟨client, .stack, n⟩
    else hs.erase ⟨client, .counter, n⟩
  | _, _ => hs

/-- What the clients hold. -/
def holdings : List (Event Client Num) → List (Holding Client)
  | [] => []
  | e :: h => holdingsAfter e.client e.op e.outcome (holdings h)

/-- The numbers held from the stack. -/
def stackNumbers (hs : List (Holding Client)) : List Int :=
  (hs.filter (·.mode = .stack)).map Holding.number

/-- An accepted close is made by a client that holds the number from the stack. -/
def ClosesHeld (older : List (Event Client Num)) (e : Event Client Num) : Prop :=
  ∀ n, e.op = .cls n → e.outcome = .nothing → ⟨e.client, .stack, n⟩ ∈ holdings older

omit [DecidableEq Client] in
theorem mem_stackNumbers {hs : List (Holding Client)} {n : Int} :
    n ∈ stackNumbers hs ↔ ∃ client, ⟨client, .stack, n⟩ ∈ hs := by
  simp only [stackNumbers, List.mem_map, List.mem_filter, decide_eq_true_eq]
  constructor
  · rintro ⟨⟨client, mode, m⟩, ⟨hmem, rfl⟩, rfl⟩
    exact ⟨client, hmem⟩
  · rintro ⟨client, hmem⟩
    exact ⟨_, ⟨hmem, rfl⟩, rfl⟩

/-- Giving up a holding from the stack takes its number off the stack numbers. -/
theorem stackNumbers_erase {hs : List (Holding Client)} {client : Client} {n : Int}
    (hmem : ⟨client, .stack, n⟩ ∈ hs) :
    ((stackNumbers hs).erase n).Perm (stackNumbers (hs.erase ⟨client, .stack, n⟩)) := by
  -- The holding is one of those filtered, and erasing its number undoes putting it in front.
  have hperm := ((List.perm_cons_erase hmem).filter (·.mode = .stack)).map Holding.number
  have hcons := hperm.erase n
  simpa [stackNumbers] using hcons

/-- The issued numbers are those the clients hold from the stack. -/
theorem issued_perm {h : List (Event Client Num)} (hheld : Along ClosesHeld h) :
    (issued h).Perm (stackNumbers (holdings h)) := by
  -- Both lists change at the same events: a stack number handed out, and an accepted close.
  induction h with
  | nil => exact List.Perm.refl _
  | cons e h ih =>
    have hperm := ih hheld.2
    have hclose := hheld.1
    simp only [issued, holdings]
    cases hop : e.op with
    | stackSeqno =>
      cases hr : e.outcome with
      | number n => simpa [issuedAfter, holdingsAfter, stackNumbers] using hperm
      | _ => exact hperm
    | counterSeqno =>
      cases hr : e.outcome with
      | number n => simpa [issuedAfter, holdingsAfter, stackNumbers] using hperm
      | _ => exact hperm
    | cls n =>
      cases hr : e.outcome with
      | nothing =>
        have hmem := hclose n hop hr
        simp only [issuedAfter, holdingsAfter, if_pos hmem]
        exact (hperm.erase n).trans (stackNumbers_erase hmem)
      | _ => exact hperm
    | _ => exact hperm

theorem mem_issued_of_mem_holdings {h : List (Event Client Num)} (hheld : Along ClosesHeld h)
    {client : Client} {n : Int} (hmem : ⟨client, .stack, n⟩ ∈ holdings h) : n ∈ issued h :=
  (issued_perm hheld).mem_iff.mpr (mem_stackNumbers.mpr ⟨client, hmem⟩)

/-- Clients that only close what they hold only close issued numbers. -/
theorem closesIssued_of_closesHeld {h : List (Event Client Num)} {f : Frame}
    (hrun : Runs Step start h f) (hheld : Along ClosesHeld h) : Along ClosesIssued h := by
  apply (hheld.hereditary.and (accepted_iff_touched hrun)).mono
  rintro older e ⟨⟨hclose, holder⟩, haccept⟩ n hop htouched
  -- The close of a touched number is accepted, and its caller holds the number.
  exact mem_issued_of_mem_holdings holder (hclose n hop ((haccept n hop).mpr htouched))

end MyLua.MainFrame
