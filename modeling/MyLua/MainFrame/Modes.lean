import MyLua.MainFrame.Clients

/-!
# The Two Modes of `get_seqno`

`get_seqno("stack")` and `get_seqno` with any other argument hand out numbers from two
allocators that do not know of each other: both start at 1, and `cls_seqno` feeds the numbers
of both into the stack. Within one mode numbers stay unique; across the modes they do not.

## Main results

- `counter_fresh`: the counter never returns a number twice.
- `uniqueInMode`: without closes of counter numbers, both modes stay unique.
- `modes_unique`: the statement for every run of clients that close only what they hold.
- `modes_share_first_number`: the two modes return the same number.
-/

namespace MyLua.MainFrame

open MyLua.Foundation

variable {Num Client : Type} [LuaNumber Num] [DecidableEq Client]

/-! ## §1 Numbers returned -/

/-- `get_seqno` returned the number in the mode. -/
def Event.Returns (mode : Mode) (n : Int) (e : Event Client Num) : Prop :=
  match mode with
  | .stack => e.op = .stackSeqno ∧ e.outcome = .number n
  | .counter => e.op = .counterSeqno ∧ e.outcome = .number n

/-- The numbers the counter has returned. -/
def counted : List (Event Client Num) → List Int
  | [] => []
  | e :: h =>
    match e.op, e.outcome with
    | .counterSeqno, .number n => n :: counted h
    | _, _ => counted h

/-- Clients store into and close only numbers they hold, in either mode. -/
def HoldsUsed (older : List (Event Client Num)) (e : Event Client Num) : Prop :=
  match e.op with
  | .cls n => ∃ mode, ⟨e.client, mode, n⟩ ∈ holdings older
  | .set n _ _ _ => ∃ mode, ⟨e.client, mode, n⟩ ∈ holdings older
  | _ => True

/-- A returned number is none that is held, in whatever mode. -/
def Unique (older : List (Event Client Num)) (e : Event Client Num) : Prop :=
  ∀ mode n, e.Returns mode n → ∀ x ∈ holdings older, x.number ≠ n

/-- A returned number is none that is held in the same mode. -/
def UniqueInMode (older : List (Event Client Num)) (e : Event Client Num) : Prop :=
  ∀ mode n, e.Returns mode n → ∀ x ∈ holdings older, x.mode = mode → x.number ≠ n

/-- Holdings of one mode have different numbers. -/
def Separate (hs : List (Holding Client)) : Prop :=
  hs.Pairwise fun x y => x.mode = y.mode → x.number ≠ y.number

variable {h : List (Event Client Num)} {f : Frame}

omit [DecidableEq Client] in
theorem counted_length_mono (e : Event Client Num) :
    (counted h).length ≤ (counted (e :: h)).length := by
  simp only [counted]
  split
  · simp
  · exact Nat.le_refl _

omit [DecidableEq Client] in
/-- After `k` calls the counter stands at `k + 1`, wrapped to an `int`. -/
theorem seqno_eq (hrun : Runs Step start h f) :
    f.seqno = wrapInt ((counted h).length + 1) := by
  apply hrun.invariant (I := fun h f => f.seqno = wrapInt ((counted h).length + 1))
  · exact (wrapInt_natCast (by decide : 1 < 2 ^ 31)).symm
  · intro h f e f' hseqno hs
    obtain ⟨now, op, r, hop, hout, heff⟩ := hs.effect
    simp only [counted, hop, hout]
    cases heff with
    | counter =>
      dsimp only
      rw [hseqno, wrapInt_wrapInt_add_one, List.length_cons, Int.natCast_succ]
    | _ => exact hseqno

omit [DecidableEq Client] in
/-- As long as the counter fits an `int`, after `k` calls all numbers it returned are up to `k`. -/
theorem counted_bounds (hrun : Runs Step start h f) (hfew : (counted h).length < 2 ^ 31) :
    ∀ n ∈ counted h, n ≤ (counted h).length := by
  induction hrun with
  | start => simp [counted]
  | @next h f f' e hr hs ih =>
    have hle := ih (Nat.lt_of_le_of_lt (counted_length_mono e) hfew)
    obtain ⟨now, op, r, hop, hout, heff⟩ := hs.effect
    simp only [counted, hop, hout] at hfew ⊢
    cases heff with
    | counter =>
      -- The counter fits an `int`, so the number returned is the count.
      have hseqno := seqno_eq hr
      rw [List.length_cons] at hfew
      rw [← Int.natCast_succ, wrapInt_natCast hfew] at hseqno
      intro n hn
      rw [List.length_cons]
      rcases List.mem_cons.mp hn with rfl | hn
      · exact Int.le_of_eq hseqno
      · have := hle n hn
        omega
    | _ => exact hle

omit [DecidableEq Client] in
/-- The counter never returns a number twice while it fits an `int`. -/
theorem counter_fresh (hrun : Runs Step start h f) (hfew : (counted h).length < 2 ^ 31) :
    Along (fun older e => ∀ n, e.Returns .counter n → n ∉ counted older) h := by
  induction hrun with
  | start => trivial
  | @next h f f' e hr hs ih =>
    have hfew' := Nat.lt_of_le_of_lt (counted_length_mono (h := h) e) hfew
    refine ⟨?_, ih hfew'⟩
    rintro n ⟨hop, hout⟩ hmem
    have hle := counted_bounds hr hfew' n hmem
    obtain ⟨now, r, hout', heff⟩ := hs.effect_of_op hop
    rw [hout] at hout'
    subst hout'
    cases heff with
    | counter =>
      -- The number returned is above all those returned before.
      simp only [counted, hop, hout, List.length_cons] at hfew
      rw [seqno_eq hr, ← Int.natCast_succ, wrapInt_natCast hfew] at hle
      omega

/-! ## §2 Numbers held -/

/-- What is held after an event was held before or is what the event returned. -/
theorem mem_holdings_cons {e : Event Client Num} {x : Holding Client}
    (hx : x ∈ holdings (e :: h)) :
    x ∈ holdings h ∨ (x.client = e.client ∧ e.Returns x.mode x.number) := by
  simp only [holdings, holdingsAfter] at hx
  split at hx
  · rename_i n hop hout
    rcases List.mem_cons.mp hx with rfl | hx
    · exact .inr ⟨rfl, hop, hout⟩
    · exact .inl hx
  · rename_i n hop hout
    rcases List.mem_cons.mp hx with rfl | hx
    · exact .inr ⟨rfl, hop, hout⟩
    · exact .inl hx
  · split at hx <;> exact .inl (List.mem_of_mem_erase hx)
  · exact .inl hx

/-- What is held in counter mode was returned by the counter. -/
theorem mem_counted_of_mem_holdings {x : Holding Client} (hx : x ∈ holdings h)
    (hmode : x.mode = .counter) : x.number ∈ counted h := by
  induction h with
  | nil => cases hx
  | cons e h ih =>
    simp only [counted]
    rcases mem_holdings_cons hx with hx | ⟨-, hreturns⟩
    · split
      · exact List.mem_cons_of_mem _ (ih hx)
      · exact ih hx
    · rw [hmode] at hreturns
      obtain ⟨hop, hout⟩ := hreturns
      simp [hop, hout]

/-- Without closes of counter numbers, a returned number is not held in the same mode. -/
theorem uniqueInMode (hrun : Runs Step start h f) (hcounted : (counted h).length < 2 ^ 31 - 1)
    (hfew : Always FewIssued h) (hheld : Along ClosesHeld h) : Along UniqueInMode h := by
  -- In stack mode the pool hands out numbers that are not issued.
  have hstack : Along (fun older e => ∀ n, e.Returns .stack n → n ∉ issued older) h := by
    refine hrun.along ?_ (hheld.and hfew.along)
    rintro h f e f' hr hokh - hs n ⟨hop, hout⟩
    have hheldh : Along ClosesHeld h := hokh.mono fun _ _ he => he.1
    have hfewh := hokh.mono fun _ _ he => he.2
    have href := refinesPool hr (closesIssued_of_closesHeld hr hheldh) hfewh
    exact (href.notMem_issued hs hop hout).2
  apply ((hstack.and (counter_fresh hrun (by omega))).and hheld.hereditary).mono
  rintro older e ⟨⟨hissued, hcounter⟩, -, holder⟩ mode n hreturns x hx hmode rfl
  cases mode with
  | stack =>
    obtain ⟨client, mode, m⟩ := x
    subst hmode
    exact hissued m hreturns (mem_issued_of_mem_holdings holder hx)
  | counter => exact hcounter x.number hreturns (mem_counted_of_mem_holdings hx hmode)

/-- Numbers that are unique when they are returned stay different while they are held. -/
theorem separate_of_uniqueInMode (hunique : Along UniqueInMode h) : Separate (holdings h) := by
  induction h with
  | nil => exact List.Pairwise.nil
  | cons e h ih =>
    have hsep := ih hunique.2
    have hnow := hunique.1
    simp only [holdings, holdingsAfter]
    split
    · rename_i n hop hout
      refine List.Pairwise.cons (fun x hx hmode heq => ?_) hsep
      exact hnow .stack n ⟨hop, hout⟩ x hx hmode.symm heq.symm
    · rename_i n hop hout
      refine List.Pairwise.cons (fun x hx hmode heq => ?_) hsep
      exact hnow .counter n ⟨hop, hout⟩ x hx hmode.symm heq.symm
    · split <;> exact hsep.sublist List.erase_sublist
    · exact hsep

/-- In a run that uses one mode, every holding is in that mode. -/
theorem mode_of_mem_holdings {mode : Mode}
    (hone : ∀ e ∈ h, ∀ mode' n, e.Returns mode' n → mode' = mode) {x : Holding Client}
    (hx : x ∈ holdings h) : x.mode = mode := by
  induction h with
  | nil => cases hx
  | cons e h ih =>
    rcases mem_holdings_cons hx with hx | ⟨-, hreturns⟩
    · exact ih (fun e' he' => hone e' (List.mem_cons_of_mem e he')) hx
    · exact hone e List.mem_cons_self _ _ hreturns

/-- Clients that use only the stack close what they hold from the stack. -/
theorem closesHeld_of_stack_only (hused : Along HoldsUsed h)
    (hone : ∀ e ∈ h, ∀ mode n, e.Returns mode n → mode = .stack) : Along ClosesHeld h := by
  apply (hused.and (along_of_forall_mem hone)).mono
  rintro older e ⟨hholds, -, holder⟩ n hop -
  simp only [HoldsUsed, hop] at hholds
  obtain ⟨mode, hmem⟩ := hholds
  have hmode : mode = .stack := mode_of_mem_holdings holder hmem
  exact hmode ▸ hmem

/-! ## §3 Both modes -/

/-- In every run of clients that store into and close only numbers they hold, while either
mode has handed out few numbers: the counter never returns a number again; as long as only
numbers from the stack are closed, a returned number is none that is held in the same mode, so
two requests of one mode never share a number; and if all numbers come from one mode, a returned
number is none that is held at all. -/
theorem modes_unique (hrun : Runs Step start h f) (hused : Along HoldsUsed h)
    (hcounted : (counted h).length < 2 ^ 31 - 1) (hfew : Always FewIssued h) :
    Along (fun older e => ∀ n, e.Returns .counter n → n ∉ counted older) h ∧
      (Along ClosesHeld h → Along UniqueInMode h ∧ Separate (holdings h)) ∧
      ∀ mode, (∀ e ∈ h, ∀ mode' n, e.Returns mode' n → mode' = mode) →
        Along Unique h ∧ ((holdings h).map Holding.number).Nodup := by
  have hcounter := counter_fresh hrun (by omega)
  refine ⟨hcounter, fun hheld => ?_, fun mode hone => ?_⟩
  · have hunique := uniqueInMode hrun hcounted hfew hheld
    exact ⟨hunique, separate_of_uniqueInMode hunique⟩
  · have hunique : Along UniqueInMode h := by
      -- One mode at a time: the stack by its pool, the counter because it never repeats.
      cases mode with
      | stack => exact uniqueInMode hrun hcounted hfew (closesHeld_of_stack_only hused hone)
      | counter =>
        apply (hcounter.and (along_of_forall_mem hone)).mono
        rintro older e ⟨hfresh, hnow, -⟩ mode n hreturns x hx hmode rfl
        have := hnow mode _ hreturns
        subst this
        exact hfresh _ hreturns (mem_counted_of_mem_holdings hx hmode)
    constructor
    · apply (hunique.and (along_of_forall_mem hone)).mono
      rintro older e ⟨hmode, hnow, holder⟩ mode' n hreturns x hx
      -- All holdings are in the mode of the call, so the restriction to one mode is no restriction.
      apply hmode mode' n hreturns x hx
      rw [mode_of_mem_holdings holder hx, hnow mode' n hreturns]
    · rw [List.Nodup, List.pairwise_map]
      apply (separate_of_uniqueInMode hunique).imp_of_mem
      intro x y hx hy hsep
      exact hsep ((mode_of_mem_holdings hone hx).trans (mode_of_mem_holdings hone hy).symm)

/-- A request closes its number from the stack; another one gets a number from the counter, and the
first client the number it closed. -/
def numberReused : List (Bool × Call Int) :=
  [(true, .getSeqno [.string (ascii "stack")]),
    (false, .getSeqno []),
    (true, .clsSeqno [.number 1]),
    (true, .setValue [.number 1, .string [97], .string [98], .string [99]]),
    (true, .getSeqno [.string (ascii "stack")])]

theorem modes_unique_numberReused :
    (holdings (replay numberReused).1).map Holding.number = [1, 1] ∧
      Separate (holdings (replay numberReused).1) := by
  have hmem : (⟨true, .stack, 1⟩ : Holding Bool) ∈
      holdings (replay (numberReused.drop 3)).1 := by decide
  have hused : Along HoldsUsed (replay numberReused).1 :=
    ⟨trivial, trivial, ⟨_, hmem⟩, ⟨_, hmem⟩, trivial, trivial⟩
  have hheld : Along ClosesHeld (replay numberReused).1 := by
    refine ⟨nofun, nofun, ?_, nofun, nofun, trivial⟩
    -- The one close is by the client that got the number from the stack.
    rintro n hop -
    obtain rfl : 1 = n := MainFrame.Op.cls.inj hop
    exact hmem
  have hunique := modes_unique (runs_replay numberReused) hused (by decide) (by decide)
  exact ⟨by decide, (hunique.2.1 hheld).2⟩

/-- Two requests, one from each mode. -/
def bothModes : List (Bool × Call Int) :=
  [(false, .getSeqno []), (true, .getSeqno [.string (ascii "stack")])]

/-- A number from the counter is stored into and closed, and then two requests take numbers
from the stack. -/
def counterNumberClosed : List (Bool × Call Int) :=
  [(false, .getSeqno [.string (ascii "stack")]),
    (true, .getSeqno [.string (ascii "stack")]),
    (true, .clsSeqno [.number 1]),
    (true, .setValue [.number 1, .string [97], .string [98], .string [99]]),
    (true, .getSeqno [])]

/-- Across the modes the number 1 is given to two clients; and once a number from the counter
was closed, the stack alone gives the number 1 to two clients. -/
theorem modes_share_first_number :
    (¬ ∀ (h : List (Event Bool Int)) (f : Frame), Runs Step start h f → Along HoldsUsed h →
      Along Unique h) ∧
    ¬ ∀ (h : List (Event Bool Int)) (f : Frame), Runs Step start h f → Along HoldsUsed h →
      Along UniqueInMode h := by
  constructor
  · -- Both allocators start at 1.
    intro hall
    have hunique := (hall _ _ (runs_replay bothModes) ⟨trivial, trivial, trivial⟩).1
    exact hunique .counter 1 ⟨rfl, rfl⟩ ⟨true, .stack, 1⟩ (by decide) rfl
  · intro hall
    -- The closed counter number 1 lies on the stack above the stack's own 1.
    have hheld : (⟨true, .counter, 1⟩ : Holding Bool) ∈
        holdings (replay (counterNumberClosed.drop 4)).1 := by decide
    have hused : Along HoldsUsed (replay counterNumberClosed).1 :=
      ⟨trivial, trivial, ⟨_, hheld⟩, ⟨_, hheld⟩, trivial, trivial⟩
    have hunique := (hall _ _ (runs_replay counterNumberClosed) hused).1
    exact hunique .stack 1 ⟨rfl, rfl⟩ ⟨true, .stack, 1⟩ (by decide) rfl rfl

end MyLua.MainFrame
