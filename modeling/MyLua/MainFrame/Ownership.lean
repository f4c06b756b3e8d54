import MyLua.MainFrame.Clients
import MyLua.MainFrame.RequestStore

/-!
# Ownership of Sequence Numbers in Stack Mode

Clients that work as `main.lua` does: get a number from the stack, read and store under it
while they hold it, and close it once something was stored.

## Main results

- `touched_issued`: only numbers that are held have an entry in `g_mapVal`.
- `lastStored_eq_storedSinceIssue`: what is stored under a held number was stored by its holder.
- `largest_eq_peak`: numbers are reused before fresh ones are made.
- `stackOwnership`: the whole statement, for every run.
-/

namespace MyLua.MainFrame

open MyLua.Foundation

variable {Num Client : Type} [LuaNumber Num] [DecidableEq Client]

/-! ## §1 Disciplined clients -/

/-- Something was stored under the number since it was handed out. -/
def StoredSince : List (Event Client Num) → Int → Prop
  | [], _ => False
  | e :: h, n =>
    match e.op, e.outcome with
    | .set m _ _ _, _ => n = m ∨ StoredSince h n
    | .stackSeqno, .number m => n ≠ m ∧ StoredSince h n
    | .cls m, _ => n ≠ m ∧ StoredSince h n
    | _, _ => StoredSince h n

/-- The client obtained the number with `get_seqno("stack")` and has not closed it. -/
def Holds (h : List (Event Client Num)) (client : Client) (n : Int) : Prop :=
  ⟨client, .stack, n⟩ ∈ holdings h

instance (h : List (Event Client Num)) (client : Client) (n : Int) : Decidable (Holds h client n) :=
  inferInstanceAs (Decidable (_ ∈ _))

/-- What a client may do: obtain numbers from the stack, use those it holds, and close them
after something was stored. -/
def Allowed (older : List (Event Client Num)) (e : Event Client Num) : Prop :=
  match e.op with
  | .stackSeqno => True
  | .counterSeqno => False
  | .cls n => Holds older e.client n ∧ StoredSince older n
  | .get n _ _ => Holds older e.client n
  | .set n _ _ _ => Holds older e.client n
  | .rejected => True

/-- Allowed, while few numbers are issued. -/
def Orderly (older : List (Event Client Num)) (e : Event Client Num) : Prop :=
  Allowed older e ∧ FewIssued (e :: older)

variable {h : List (Event Client Num)} {f : Frame}

theorem closesHeld_of_orderly (hord : Along Orderly h) : Along ClosesHeld h := by
  apply hord.mono
  rintro older e ⟨hallow, -⟩ n hop -
  simp only [Allowed, hop] at hallow
  exact hallow.1

theorem mem_issued_of_holds (hord : Along Orderly h) {client : Client} {n : Int}
    (hholds : Holds h client n) : n ∈ issued h :=
  mem_issued_of_mem_holdings (closesHeld_of_orderly hord) hholds

/-- Orderly runs keep `g_stseq` a pool. -/
theorem refinesPool_of_orderly (hrun : Runs Step start h f) (hord : Along Orderly h) :
    RefinesPool h f :=
  refinesPool hrun (closesIssued_of_closesHeld hrun (closesHeld_of_orderly hord))
    (hord.mono fun _ _ he => he.2)

omit [DecidableEq Client] in
/-- A number that was stored into since it was handed out was touched since it was closed. -/
theorem touched_of_storedSince {n : Int} (hstored : StoredSince h n) : Touched h n := by
  induction h with
  | nil => exact hstored
  | cons e h ih =>
    simp only [StoredSince, Touched] at hstored ⊢
    cases hop : e.op with
    | stackSeqno =>
      -- Handing the number out ends `StoredSince`, and does not touch it.
      cases hr : e.outcome <;> simp only [hop, hr] at hstored
      case number m => exact ih hstored.2
      all_goals exact ih hstored
    | counterSeqno => exact ih (by simpa only [hop] using hstored)
    | cls m =>
      simp only [hop] at hstored
      exact ⟨hstored.1, ih hstored.2⟩
    -- A read touches without storing.
    | get m k1 k2 => exact .inr (ih (by simpa only [hop] using hstored))
    | set m k1 k2 v =>
      simp only [hop] at hstored
      exact hstored.imp_right ih
    | rejected => exact ih (by simpa only [hop] using hstored)

/-- A close by a disciplined client is never refused. -/
theorem accepted_of_orderly (hrun : Runs Step start h f) (hord : Along Orderly h) :
    Along (fun _ e => ∀ n, e.op = .cls n → e.outcome = .nothing) h := by
  apply (hord.and (accepted_iff_touched hrun)).mono
  rintro older e ⟨⟨hallow, -⟩, haccept⟩ n hop
  simp only [Allowed, hop] at hallow
  exact (haccept n hop).mpr (touched_of_storedSince hallow.2)

/-! ## §2 Entries -/

/-- Only issued numbers have an entry. -/
theorem touched_issued (hrun : Runs Step start h f) (hord : Along Orderly h) :
    ∀ n, Touched h n → n ∈ issued h := by
  induction hrun with
  | start => exact fun n hn => hn.elim
  | @next h f f' e hr hs ih =>
    intro n hn
    have hold := ih hord.2 n
    have hallow := hord.1.1
    simp only [Touched, issued] at hn ⊢
    obtain ⟨now, op, r, hop, hout, heff⟩ := hs.effect
    simp only [hop, hout, issuedAfter, Allowed] at hn hallow ⊢
    cases heff with
    | stack top => exact List.mem_cons_of_mem _ (hold hn)
    | counter => exact hold hn
    -- The closed number is neither touched nor issued any more.
    | closed present => exact (List.mem_erase_of_ne hn.1).mpr (hold hn.2)
    | refused absent => exact hold hn.2
    | get m k1 k2 =>
      -- A new entry is made by the holder of its number, and what is held is issued.
      rcases hn with rfl | hn
      · exact mem_issued_of_holds hord.2 hallow
      · exact hold hn
    | set m k1 k2 v =>
      rcases hn with rfl | hn
      · exact mem_issued_of_holds hord.2 hallow
      · exact hold hn
    | rejected => exact hold hn

/-- The value stored last under a number and two keys since the number was handed out. -/
def storedSinceIssue (n : Int) (k1 k2 : Bytes) : List (Event Client Num) → Option Bytes
  | [] => none
  | e :: h =>
    match e.op, e.outcome with
    | .stackSeqno, .number m => if n = m then none else storedSinceIssue n k1 k2 h
    | .set n' k1' k2' v, _ =>
      if n = n' ∧ k1 = k1' ∧ k2 = k2' then some v else storedSinceIssue n k1 k2 h
    | _, _ => storedSinceIssue n k1 k2 h

/-- Under an issued number the store holds what was stored since it was handed out, and
nothing under any other. -/
theorem lastStored_eq_storedSinceIssue (hrun : Runs Step start h f) (hord : Along Orderly h)
    (n : Int) (k1 k2 : Bytes) :
    (n ∈ issued h → lastStored n k1 k2 h = storedSinceIssue n k1 k2 h) ∧
      (n ∉ issued h → lastStored n k1 k2 h = none) := by
  induction hrun with
  | start => exact ⟨fun hn => absurd hn (List.not_mem_nil), fun _ => rfl⟩
  | @next h f f' e hr hs ih =>
    obtain ⟨hin, hnot⟩ := ih hord.2
    have href := refinesPool_of_orderly hr hord.2
    have haccept := (accepted_of_orderly (hr.next hs) hord).1
    have hallow := hord.1.1
    have hfresh := fun m => href.notMem_issued hs (n := m)
    obtain ⟨now, op, r, hop, hout, heff⟩ := hs.effect
    simp only [hop, hout, Allowed] at haccept hallow hfresh
    simp only [issued, lastStored, storedSinceIssue, hop, hout]
    cases heff with
    | @stack m rest top =>
      -- The number handed out was not issued, so nothing was stored under it.
      simp only [issuedAfter, List.mem_cons, not_or]
      have hm : m ∉ issued h := (hfresh m rfl rfl).2
      constructor
      · rintro hn
        by_cases hnm : n = m
        · rw [if_pos hnm, hnot (hnm ▸ hm)]
        · rw [if_neg hnm, hin (hn.resolve_left hnm)]
      · exact fun hn => hnot hn.2
    -- Disciplined clients do not call the counter mode.
    | counter => exact hallow.elim
    | @closed m present =>
      -- A close removes what is stored under the number and takes the number back at once.
      have hnodup : (issued h).Nodup := href.out ▸ Pool.nodup_out href.valid
      simp only [issuedAfter]
      constructor
      · intro hn
        have hnm : n ≠ m := fun heq => hnodup.not_mem_erase (heq ▸ hn)
        rw [if_neg hnm, hin (List.mem_of_mem_erase hn)]
      · intro hn
        split
        · rfl
        · exact hnot fun hmem => hn ((List.mem_erase_of_ne ‹_›).mpr hmem)
    -- No close is refused.
    | @refused m absent => exact absurd (haccept m rfl) (by simp)
    | get m k1' k2' => exact ⟨hin, hnot⟩
    | set m k1' k2' v =>
      -- A store is made by the holder, so it cannot reach a number that is not issued.
      simp only [issuedAfter]
      constructor
      · intro hn
        rw [hin hn]
      · intro hn
        have hnm : n ≠ m := fun heq => hn (heq ▸ mem_issued_of_holds hord.2 hallow)
        rw [if_neg fun hkey => hnm hkey.1, hnot hn]
    | rejected => exact ⟨hin, hnot⟩

/-! ## §3 Reuse -/

/-- The largest number `get_seqno("stack")` returned, 0 before the first. -/
def largest : List (Event Client Num) → Int
  | [] => 0
  | e :: h =>
    match e.op, e.outcome with
    | .stackSeqno, .number n => max n (largest h)
    | _, _ => largest h

/-- The largest number of simultaneously issued numbers so far. -/
def peak : List (Event Client Num) → Nat
  | [] => 0
  | e :: h => max (issued (e :: h)).length (peak h)

theorem largest_eq_peak (hrun : Runs Step start h f) (hord : Along Orderly h) :
    largest h = (poolOf h).next - 1 ∧ (peak h : Int) = (poolOf h).next - 1 := by
  induction hrun with
  | start => exact ⟨rfl, rfl⟩
  | @next h f f' e hr hs ih =>
    obtain ⟨hlargest, hpeak⟩ := ih hord.2
    have href := refinesPool_of_orderly hr hord.2
    have href' := refinesPool_of_orderly (hr.next hs) hord
    have hle := Pool.length_out_le href'.valid
    have hfresh := fun m => href.notMem_issued hs (n := m)
    rw [peak, ← href'.out]
    obtain ⟨now, op, r, hop, hout, heff⟩ := hs.effect
    simp only [hop, hout] at hfresh
    simp only [largest, poolOf, hop, hout] at hle ⊢
    cases heff with
    | @stack n rest top =>
      -- Either a free number is reused, or all numbers below the fresh one are out at this moment.
      have hn : (poolOf h).take.1 = n := (hfresh n rfl rfl).1
      simp only [poolAfter] at hle ⊢
      rcases Pool.take_cases href.valid with ⟨hlt, hnext⟩ | ⟨heq, hnext, hlen⟩
      · omega
      · omega
    | closed present =>
      -- Nothing else raises the peak, since `next` bounds the numbers that are out.
      simp only [poolAfter, Pool.give] at hle ⊢
      omega
    | _ =>
      simp only [poolAfter] at hle ⊢
      omega

/-! ## §4 Ownership -/

/-- Ownership of the sequence numbers after a run; the live numbers are the issued ones. -/
structure StackOwnership (h : List (Event Client Num)) (f : Frame) : Prop where
  distinct : f.gStseq.Nodup
  layout : ∃ free b, f.gStseq = free ++ [b] ∧ (∀ n ∈ free, n < b) ∧
    (∀ n, 1 ≤ n ∧ n < b ↔ n ∈ issued h ∨ n ∈ free) ∧ ∀ n ∈ issued h, n ∉ free
  noEntry : ∀ n ∈ f.gStseq, f.gMapVal.count n = 0
  closed : Along (fun _ e => ∀ n, e.op = .cls n → e.outcome = .nothing) h
  fresh : Along (fun older e => ∀ n, e.op = .stackSeqno → e.outcome = .number n →
    n ∉ issued older) h
  unseen : Along (fun older e => ∀ n k1 k2, e.op = .get n k1 k2 →
    e.outcome = .text ((storedSinceIssue n k1 k2 older).getD [])) h
  reuse : largest h = peak h

/-- A read by a disciplined client returns what was stored since the number was handed out. -/
theorem get_unseen (hrun : Runs Step start h f) (hord : Along Orderly h) {e : Event Client Num}
    {f' : Frame} (hallow : Allowed h e) (hs : Step f e f') {n : Int} {k1 k2 : Bytes}
    (hop : e.op = .get n k1 k2) :
    e.outcome = .text ((storedSinceIssue n k1 k2 h).getD []) := by
  obtain ⟨now, r, hr, heff⟩ := hs.effect_of_op hop
  cases heff with
  | get =>
    simp only [Allowed, hop] at hallow
    have hissued := mem_issued_of_holds hord hallow
    rw [hr, valueAt_eq_lastStored hrun, cut_lastStored,
      (lastStored_eq_storedSinceIssue hrun hord n k1 k2).1 hissued]

/-- In every run of disciplined clients in which fewer than `2 ^ 31 - 1` numbers are live at any
moment, the numbers are owned: the stack is the free numbers above the next fresh one, nothing
is stored under a number of the stack, a number handed out is not live, its new holder reads
only what was stored since, and numbers are reused before fresh ones are made. -/
theorem stackOwnership (hrun : Runs Step start h f) (hallow : Along Allowed h)
    (hfew : Always FewIssued h) : StackOwnership h f := by
  have hord : Along Orderly h := hallow.and hfew.along
  have href := refinesPool_of_orderly hrun hord
  have hstack : f.gStseq = (poolOf h).free ++ [(poolOf h).next] := href.stack.symm
  refine ⟨?_, ⟨(poolOf h).free, (poolOf h).next, hstack, ?_, ?_, ?_⟩, ?_,
    accepted_of_orderly hrun hord, ?_, ?_, ?_⟩
  · -- The shape of the stack: a valid pool, with its `next` at the bottom.
    exact href.stack ▸ Pool.nodup_stack href.valid
  · exact fun n hn => Pool.lt_next_of_mem_free href.valid hn
  · intro n
    rw [← href.valid.mem_iff n, List.mem_append, href.out]
    exact Or.comm
  · intro n hn hfree
    rw [← href.out] at hn
    exact Pool.notMem_out_of_mem_stack href.valid (List.mem_append_left _ hfree) hn
  · intro n hn
    -- An entry belongs to an issued number, and no number of the stack is issued.
    by_contra hcount
    have hissued := touched_issued hrun hord n ((count_ne_zero_iff_touched hrun n).mp hcount)
    rw [← href.stack] at hn
    exact Pool.notMem_out_of_mem_stack href.valid hn (href.out.symm ▸ hissued)
  · refine hrun.along ?_ hord
    intro h f e f' hr hordh _ hs n hop hout
    exact ((refinesPool_of_orderly hr hordh).notMem_issued hs hop hout).2
  · refine hrun.along ?_ hord
    intro h f e f' hr hordh hnow hs n k1 k2 hop
    exact get_unseen hr hordh hnow.1 hs hop
  · obtain ⟨hlargest, hpeak⟩ := largest_eq_peak hrun hord
    rw [hlargest, hpeak]

/-- One client closes its number, another one gets it and finds nothing under it. -/
def handedOver : List (Bool × Call Int) :=
  [(false, .getValue [.number 1, .string [97], .string [98]]),
    (false, .getSeqno [.string (ascii "stack")]),
    (true, .clsSeqno [.number 1]),
    (true, .setValue [.number 1, .string [97], .string [98], .string [99]]),
    (false, .getSeqno [.string (ascii "stack")]),
    (true, .getSeqno [.string (ascii "stack")])]

theorem stackOwnership_handedOver :
    StackOwnership (replay handedOver).1 (replay handedOver).2 ∧
      (replay handedOver).2.gStseq = [3] ∧ issued (replay handedOver).1 = [1, 2] := by
  -- Each use is checked against the holdings of the moment in which it was made.
  have hread : Holds (replay (handedOver.drop 1)).1 false 1 := by decide
  have hclose : Holds (replay (handedOver.drop 3)).1 true 1 := by decide
  have hstore : Holds (replay (handedOver.drop 4)).1 true 1 := by decide
  have hallow : Along Allowed (replay handedOver).1 :=
    ⟨hread, trivial, ⟨hclose, .inl rfl⟩, hstore, trivial, trivial, trivial⟩
  exact ⟨stackOwnership (runs_replay handedOver) hallow (by decide), by decide, by decide⟩

end MyLua.MainFrame
