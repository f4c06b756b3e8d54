import MyLua.Foundation.Pool
import MyLua.MainFrame.Store

/-!
# The Free List of Sequence Numbers (`get_seqno("stack")`, `cls_seqno`)

`g_stseq` holds the numbers that were closed, with the next fresh number at the bottom.
`cls_seqno` takes back any number that has an entry in `g_mapVal`, and both `get_value` and
`set_value` create that entry, whoever holds the number.

## Main results

- `count_ne_zero_iff_touched`: which numbers have an entry, from the history alone.
- `refinesPool`: as long as only issued numbers are closed, `g_stseq` is a recycling pool.
- `freeListSound_iff`: the free list stays sound exactly as long as no number that is not
  issued is closed after it was read or stored into.
-/

namespace MyLua.MainFrame

open MyLua.Foundation

variable {Num Client : Type} [LuaNumber Num]

/-! ## §1 What the history says -/

/-- The issued numbers after an operation. -/
def issuedAfter (op : Op) (r : Outcome) (out : List Int) : List Int :=
  match op, r with
  | .stackSeqno, .number n => n :: out
  | .cls n, .nothing => out.erase n
  | _, _ => out

/-- The numbers `get_seqno("stack")` returned and `cls_seqno` has not taken back since. -/
def issued : List (Event Client Num) → List Int
  | [] => []
  | e :: h => issuedAfter e.op e.outcome (issued h)

/-- The number was read or stored into since it was closed last. -/
def Touched : List (Event Client Num) → Int → Prop
  | [], _ => False
  | e :: h, n =>
    match e.op with
    | .get m _ _ => n = m ∨ Touched h n
    | .set m _ _ _ => n = m ∨ Touched h n
    | .cls m => n ≠ m ∧ Touched h n
    | _ => Touched h n

/-- The numbers with an entry after an operation, from those with one before it. -/
def touch (op : Op) (P : Int → Prop) (n : Int) : Prop :=
  match op with
  | .get m _ _ => n = m ∨ P n
  | .set m _ _ _ => n = m ∨ P n
  | .cls m => n ≠ m ∧ P n
  | _ => P n

theorem touched_cons (e : Event Client Num) (h : List (Event Client Num)) (n : Int) :
    Touched (e :: h) n ↔ touch e.op (Touched h) n := by
  simp only [Touched, touch]

theorem touch_congr {P Q : Int → Prop} (hPQ : ∀ n, P n ↔ Q n) (op : Op) (n : Int) :
    touch op P n ↔ touch op Q n := by
  have heq : P = Q := funext fun n => propext (hPQ n)
  rw [heq]

/-- What an operation does to the entries of `g_mapVal`. -/
theorem count_effect {now : Int} {f f' : Frame} {op : Op} {r : Outcome}
    (heff : Effect now f op r f') (n : Int) :
    f'.gMapVal.count n ≠ 0 ↔ touch op (fun n => f.gMapVal.count n ≠ 0) n := by
  cases heff with
  | closed present =>
    -- A close, accepted or not, leaves its number without an entry.
    simp only [touch, StdMap.count_erase]
    split <;> simp_all
  | @refused m absent =>
    simp only [touch]
    constructor
    · intro hn
      exact ⟨fun heq => hn (heq ▸ absent), hn⟩
    · exact And.right
  | get m k1 k2 =>
    -- A read inserts the entry, just as a store does.
    simp only [touch, count_putAt]
    split <;> simp_all
  | set m k1 k2 v =>
    simp only [touch, count_putAt]
    by_cases hn : n = m
    · simp [hn]
    · simp [hn, count_stamp_of_ne]
  | stack top => rfl
  | counter => rfl
  | rejected => rfl

/-- The numbers with an entry in `g_mapVal` are those touched. -/
theorem count_ne_zero_iff_touched {h : List (Event Client Num)} {f : Frame}
    (hrun : Runs Step start h f) : ∀ n, f.gMapVal.count n ≠ 0 ↔ Touched h n := by
  apply hrun.invariant (I := fun h f => ∀ n, f.gMapVal.count n ≠ 0 ↔ Touched h n)
  · intro n
    simp [start, init, Frame.initial, Touched]
  · intro h f e f' hinv hs n
    obtain ⟨now, op, r, hop, -, heff⟩ := hs.effect
    rw [count_effect heff, touched_cons, hop]
    exact touch_congr hinv op n

/-- `cls_seqno(n)` either takes `n` back and pushes it, or refuses and changes nothing. -/
theorem step_cls {f f' : Frame} {e : Event Client Num} {n : Int} (hs : Step f e f')
    (hop : e.op = .cls n) :
    (f.gMapVal.count n ≠ 0 ∧ e.outcome = .nothing ∧ f'.gStseq = n :: f.gStseq) ∨
      (f.gMapVal.count n = 0 ∧ e.outcome = .wrong n ∧ f' = f) := by
  obtain ⟨now, r, hr, heff⟩ := hs.effect_of_op hop
  cases heff with
  | closed present => exact .inl ⟨present, hr, rfl⟩
  | refused absent => exact .inr ⟨absent, hr, rfl⟩

/-! ## §2 The pool -/

/-- A close takes back an issued number, or one that nobody touched and that is refused. -/
def ClosesIssued (older : List (Event Client Num)) (e : Event Client Num) : Prop :=
  ∀ n, e.op = .cls n → Touched older n → n ∈ issued older

/-- Fewer numbers are issued than an `int` can count. -/
def FewIssued (h : List (Event Client Num)) : Prop := (issued h).length < 2 ^ 31 - 1

instance (h : List (Event Client Num)) : Decidable (FewIssued h) :=
  inferInstanceAs (Decidable (_ < _))

/-- The pool after an operation. -/
def poolAfter (op : Op) (r : Outcome) (p : Pool) : Pool :=
  match op, r with
  | .stackSeqno, .number _ => p.take.2
  | .cls n, .nothing => p.give n
  | _, _ => p

/-- The pool a history leads to. -/
def poolOf : List (Event Client Num) → Pool
  | [] => { free := [], next := 1, out := [] }
  | e :: h => poolAfter e.op e.outcome (poolOf h)

/-- `g_stseq` represents the pool of the history, whose numbers out are the issued ones. -/
structure RefinesPool (h : List (Event Client Num)) (f : Frame) : Prop where
  valid : (poolOf h).Valid
  stack : (poolOf h).stack = f.gStseq
  out : (poolOf h).out = issued h

theorem refinesPool_start : RefinesPool ([] : List (Event Client Num)) start where
  valid := ⟨by simp [poolOf], by simp [poolOf], by simp [poolOf]⟩
  stack := rfl
  out := rfl

/-- What is popped is what the pool hands out. -/
theorem RefinesPool.take_fst {h : List (Event Client Num)} {f : Frame} (href : RefinesPool h f)
    {n : Int} {rest : List Int} (top : f.gStseq = n :: rest) : (poolOf h).take.1 = n :=
  (Pool.stack_take (href.stack.trans top)).1

/-- Popping a number while few are issued hands it out. -/
theorem RefinesPool.take {h : List (Event Client Num)} {f : Frame} (href : RefinesPool h f)
    {n : Int} {rest : List Int} (top : f.gStseq = n :: rest)
    (hfew : (n :: issued h).length < 2 ^ 31 - 1) :
    (poolOf h).take.2.stack = if rest.length = 0 then [wrapInt (n + 1)] else rest := by
  rw [(Pool.stack_take (href.stack.trans top)).2]
  -- Only a fresh number can overflow, and it is one more than there are numbers out.
  by_cases hrest : rest.length = 0
  · have hn : n = (poolOf h).out.length + 1 := by
      apply Pool.eq_of_stack_eq_singleton href.valid
      rw [href.stack, top, List.length_eq_zero_iff.mp hrest]
    have hint : IsInt (n + 1) := by
      rw [href.out] at hn
      rw [List.length_cons] at hfew
      constructor <;> omega
    rw [if_pos hrest, if_pos hrest, wrapInt_of_isInt hint]
  · rw [if_neg hrest, if_neg hrest]

theorem refinesPool_step {h : List (Event Client Num)} {f f' : Frame} {e : Event Client Num}
    (hok : ClosesIssued h e) (hfew : FewIssued (e :: h))
    (htouch : ∀ n, f.gMapVal.count n ≠ 0 ↔ Touched h n) (href : RefinesPool h f)
    (hs : Step f e f') : RefinesPool (e :: h) f' := by
  obtain ⟨now, op, r, hop, hr, heff⟩ := hs.effect
  have hpool : poolOf (e :: h) = poolAfter op r (poolOf h) := by rw [poolOf, hop, hr]
  have hissued : issued (e :: h) = issuedAfter op r (issued h) := by rw [issued, hop, hr]
  cases heff with
  | stack top =>
    rw [FewIssued, hissued] at hfew
    refine ⟨?_, ?_, ?_⟩
    · rw [hpool]
      exact Pool.take_valid href.valid
    · rw [hpool]
      exact href.take top hfew
    · rw [hpool, hissued, poolAfter, issuedAfter, Pool.out_take, href.take_fst top, href.out]
  | @closed n present =>
    -- The number has an entry, so it was touched, so it is issued.
    have hmem : n ∈ (poolOf h).out := by
      rw [href.out]
      exact hok n hop ((htouch n).mp present)
    refine ⟨?_, ?_, ?_⟩
    · rw [hpool]
      exact Pool.give_valid href.valid hmem
    · rw [hpool, poolAfter, Pool.stack_give, href.stack]
    · rw [hpool, hissued, poolAfter, issuedAfter, Pool.give, href.out]
  | _ =>
    -- No other operation changes the stack or what is issued.
    refine ⟨?_, ?_, ?_⟩
    · rw [hpool]
      exact href.valid
    · rw [hpool]
      exact href.stack
    · rw [hpool, hissued]
      exact href.out

/-- In a run that only closes issued numbers, `g_stseq` is a pool throughout. -/
theorem refinesPool {h : List (Event Client Num)} {f : Frame} (hrun : Runs Step start h f)
    (hok : Along ClosesIssued h) (hfew : Along (fun older e => FewIssued (e :: older)) h) :
    RefinesPool h f := by
  induction hrun with
  | start => exact refinesPool_start
  | next hr hs ih =>
    exact refinesPool_step hok.1 hfew.1 (count_ne_zero_iff_touched hr) (ih hok.2 hfew.2) hs

/-- A number that is handed out is not issued already. -/
theorem RefinesPool.notMem_issued {h : List (Event Client Num)} {f f' : Frame}
    {e : Event Client Num} (href : RefinesPool h f) (hs : Step f e f')
    (hop : e.op = .stackSeqno) {n : Int} (hr : e.outcome = .number n) :
    (poolOf h).take.1 = n ∧ n ∉ issued h := by
  obtain ⟨now, r, hr', heff⟩ := hs.effect_of_op hop
  rw [hr] at hr'
  subst hr'
  cases heff with
  | stack top =>
    have hfst := href.take_fst top
    refine ⟨hfst, ?_⟩
    rw [← hfst, ← href.out]
    exact Pool.take_notMem_out href.valid

/-! ## §3 Soundness -/

/-- The free list is sound: every number that was taken back had been issued, the stack has no
duplicates and no issued number, and no number is issued twice. -/
structure FreeListSound (h : List (Event Client Num)) (f : Frame) : Prop where
  closes : Along (fun older e => ∀ n, e.op = .cls n → e.outcome = .nothing → n ∈ issued older) h
  nodup : f.gStseq.Nodup
  free : ∀ n ∈ f.gStseq, n ∉ issued h
  unique : (issued h).Nodup

/-- A close is accepted exactly for a touched number. -/
theorem accepted_iff_touched {h : List (Event Client Num)} {f : Frame}
    (hrun : Runs Step start h f) :
    Along (fun older e => ∀ n, e.op = .cls n → (e.outcome = .nothing ↔ Touched older n)) h := by
  refine hrun.along ?_ (along_true h)
  intro h f e f' hr _ _ hs n hop
  rw [← count_ne_zero_iff_touched hr n]
  rcases step_cls hs hop with ⟨hcount, hout, -⟩ | ⟨hcount, hout, -⟩
  · simp [hcount, hout]
  · simp [hcount, hout]

/-- The free list is sound if and only if every `cls_seqno(n)` of the run was made for an issued
number, or for one that no `get_value` or `set_value` reached since it was closed last. -/
theorem freeListSound_iff {h : List (Event Client Num)} {f : Frame} (hrun : Runs Step start h f)
    (hfew : Always FewIssued h) : FreeListSound h f ↔ Along ClosesIssued h := by
  have haccept := accepted_iff_touched hrun
  constructor
  · -- A close of a touched number is accepted, so soundness asks that the number be issued.
    intro hsound
    apply (hsound.closes.and haccept).mono
    rintro older e ⟨hcloses, hiff⟩ n hop htouched
    exact hcloses n hop ((hiff n hop).mpr htouched)
  · intro hok
    -- The four parts of soundness are facts about a valid pool.
    have href := refinesPool hrun hok hfew.along
    refine ⟨?_, ?_, ?_, ?_⟩
    · apply (hok.and haccept).mono
      rintro older e ⟨hcloses, hiff⟩ n hop hnothing
      exact hcloses n hop ((hiff n hop).mp hnothing)
    · rw [← href.stack]
      exact Pool.nodup_stack href.valid
    · intro n hn
      rw [← href.stack] at hn
      rw [← href.out]
      exact Pool.notMem_out_of_mem_stack href.valid hn
    · rw [← href.out]
      exact Pool.nodup_out href.valid

/-- One request, closed once: the free list is sound. -/
theorem freeListSound_iff_one_request :
    let calls : List (Unit × Call Int) :=
      [((), .clsSeqno [.number 1]),
        ((), .setValue [.number 1, .string [97], .string [98], .string [99]]),
        ((), .getSeqno [.string (ascii "stack")])]
    FreeListSound (replay calls).1 (replay calls).2 ↔ Along ClosesIssued (replay calls).1 :=
  freeListSound_iff (runs_replay _) (by decide)

/-- A number is closed, read once more and closed again. -/
def readAfterClose : List (Unit × Call Int) :=
  [((), .clsSeqno [.number 1]),
    ((), .getValue [.number 1, .string [97], .string [98]]),
    ((), .clsSeqno [.number 1]),
    ((), .setValue [.number 1, .string [97], .string [98], .string [99]]),
    ((), .getSeqno [.string (ascii "stack")])]

/-- The second close is accepted, and the free list holds the number twice. -/
theorem readAfterClose_unsound :
    ¬ ∀ (h : List (Event Unit Int)) (f : Frame), Runs Step start h f → FreeListSound h f := by
  intro hall
  have hnodup := (hall _ _ (runs_replay readAfterClose)).nodup
  have hstack : (replay readAfterClose).2.gStseq = [1, 1, 2] := by decide
  rw [hstack] at hnodup
  exact absurd hnodup (by decide)

end MyLua.MainFrame
