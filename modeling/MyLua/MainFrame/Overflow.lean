import MyLua.MainFrame.Bottom

/-!
# Overflow of the Sequence Numbers (`get_seqno`)

Both allocators count with an `int` that is never reset. `get_value` and `set_value` refuse an
index that is not positive, so a number handed out after the counter wrapped cannot be used.

## Main results

- `counter_outcome`, `stack_outcome`: what the two modes return, from the calls before.
- `usable_iff`: all numbers of a run are usable exactly as long as neither allocator has handed
  out `2 ^ 31` fresh numbers.
- `counter_wraps`: the run of `2 ^ 31` calls of `get_seqno()`.
-/

namespace MyLua.MainFrame

open MyLua.Foundation

variable {Num Client : Type} [LuaNumber Num]

/-! ## §1 Usable numbers -/

/-- `get_value` and `set_value` accept the number as an index: called with it and with strings
for the keys and the value, they reach its entry. -/
def AcceptedIndex (Num : Type) [LuaNumber Num] (n : Int) : Prop :=
  ∀ (L : List (LuaValue Num)) (k1 k2 : Bytes), getDataInt (luaArg L 1) = some n →
    getDataString (luaArg L 2) = some k1 → getDataString (luaArg L 3) = some k2 →
    (Call.getValue L).op = .get n k1 k2 ∧
      ∀ v, getDataString (luaArg L 4) = some v → (Call.setValue L).op = .set n k1 k2 v

/-- A number that is returned is positive and accepted as an index, and the counter has not
returned it before. -/
def Usable (older : List (Event Client Num)) (e : Event Client Num) : Prop :=
  ∀ mode n, e.Returns mode n →
    0 < n ∧ AcceptedIndex Num n ∧ (mode = .counter → n ∉ counted older)

/-- The calls of `get_seqno` in counter mode. -/
def counterCalls : List (Event Client Num) → Nat
  | [] => 0
  | e :: h =>
    match e.op with
    | .counterSeqno => counterCalls h + 1
    | _ => counterCalls h

variable {h : List (Event Client Num)} {f f' : Frame} {e : Event Client Num}

theorem counterCalls_le_cons (e : Event Client Num) :
    counterCalls h ≤ counterCalls (e :: h) := by
  simp only [counterCalls]
  split <;> omega

/-- The index check refuses no positive number. -/
theorem acceptedIndex_of_pos {n : Int} (hn : 0 < n) : AcceptedIndex Num n := by
  intro L k1 k2 hindex h1 h2
  have hle : ¬ n ≤ 0 := by omega
  constructor
  · simp [Call.op, indexed, hindex, h1, h2, hle]
  · intro v h3
    simp [Call.op, indexed, hindex, h1, h2, h3, hle]

/-- The `k`-th fresh number is positive exactly while it fits an `int`. -/
theorem wrapInt_succ_pos_iff {k : Nat} (hk : k < 2 ^ 31) :
    0 < wrapInt ((k : Int) + 1) ↔ k + 1 < 2 ^ 31 := by
  unfold wrapInt
  omega

/-! ## §2 What is returned -/

/-- The counter returns a number at every call. -/
theorem length_counted (hrun : Runs Step start h f) : (counted h).length = counterCalls h := by
  induction hrun with
  | start => rfl
  | next hr hs ih =>
    obtain ⟨now, op, r, hop, hout, heff⟩ := hs.effect
    simp only [counted, counterCalls, hop, hout]
    cases heff with
    -- Only `get_seqno` in counter mode is counted, on both sides.
    | counter => rw [List.length_cons, ih]
    | _ => exact ih

/-- The number the counter returns. -/
theorem counter_outcome (hrun : Runs Step start h f) (hs : Step f e f')
    (hop : e.op = .counterSeqno) : e.outcome = .number (wrapInt (counterCalls h + 1)) := by
  obtain ⟨now, r, hout, heff⟩ := hs.effect_of_op hop
  cases heff with
  | counter => rw [hout, seqno_eq hrun, length_counted hrun]

/-- The number the stack returns: the next fresh one, or a recycled one. -/
theorem stack_outcome (hrun : Runs Step start h f) (hs : Step f e f')
    (hop : e.op = .stackSeqno) :
    ∃ n, e.outcome = .number n ∧
      if recycled h = 0 then n = wrapInt (freshCalls h + 1) else 0 < n := by
  obtain ⟨above, hstack, hlen, hpos⟩ := gStseq_eq hrun
  obtain ⟨now, r, hout, heff⟩ := hs.effect_of_op hop
  cases heff with
  | @stack n rest top =>
    refine ⟨n, hout, ?_⟩
    rw [hstack] at top
    cases above with
    | nil =>
      -- No recycled number lies above the bottom, which is issued.
      have hrec : recycled h = 0 := hlen.symm
      rw [if_pos hrec]
      exact (List.cons.inj top).1.symm
    | cons m above =>
      obtain ⟨rfl, -⟩ := List.cons.inj top
      -- A recycled number is on top; it was touched, so it is positive.
      rw [if_neg (by rw [← hlen]; exact Nat.succ_ne_zero _)]
      exact hpos m List.mem_cons_self

/-! ## §3 Overflow -/

/-- A call in counter mode returns a usable number while the counter fits an `int`. -/
theorem usable_counter_iff (hrun : Runs Step start h f) (hs : Step f e f')
    (hop : e.op = .counterSeqno) (hfew : counterCalls h < 2 ^ 31) :
    Usable h e ↔ counterCalls h + 1 < 2 ^ 31 := by
  have hout := counter_outcome hrun hs hop
  rw [← wrapInt_succ_pos_iff hfew]
  constructor
  · intro husable
    exact (husable .counter _ ⟨hop, hout⟩).1
  · rintro hpos mode n hreturns
    cases mode with
    | stack => exact absurd (hop.symm.trans hreturns.1) (by simp)
    | counter =>
      obtain rfl : wrapInt (counterCalls h + 1) = n := by
        simpa [hout] using hreturns.2
      refine ⟨hpos, acceptedIndex_of_pos hpos, fun _ hmem => ?_⟩
      -- The number is one more than there were calls, and those before are at most that many.
      have hfit := (wrapInt_succ_pos_iff hfew).mp hpos
      have hlen := length_counted hrun
      have hle := counted_bounds hrun (by omega) _ hmem
      rw [hlen, ← Int.natCast_succ, wrapInt_natCast hfit] at hle
      omega

/-- A call in stack mode returns a usable number unless the fresh numbers have run out. -/
theorem usable_stack_iff (hrun : Runs Step start h f) (hs : Step f e f')
    (hop : e.op = .stackSeqno) (hfew : freshCalls h < 2 ^ 31) :
    Usable h e ↔ (recycled h = 0 → freshCalls h + 1 < 2 ^ 31) := by
  obtain ⟨n, hout, hn⟩ := stack_outcome hrun hs hop
  have husable : Usable h e ↔ 0 < n := by
    constructor
    · intro husable
      exact (husable .stack n ⟨hop, hout⟩).1
    · rintro hpos mode m hreturns
      cases mode with
      | stack =>
        obtain rfl : n = m := by simpa [hout] using hreturns.2
        exact ⟨hpos, acceptedIndex_of_pos hpos, by simp⟩
      | counter => exact absurd (hop.symm.trans hreturns.1) (by simp)
  rw [husable, ← wrapInt_succ_pos_iff hfew]
  by_cases hrec : recycled h = 0
  · rw [if_pos hrec] at hn
    simp [hrec, hn]
  · rw [if_neg hrec] at hn
    simp [hrec, hn]

/-- A call returns a usable number exactly if it does not exhaust its allocator. -/
theorem usable_cons_iff (hrun : Runs Step start h f) (hs : Step f e f')
    (hcounter : counterCalls h < 2 ^ 31) (hfresh : freshCalls h < 2 ^ 31) :
    Usable h e ↔ counterCalls (e :: h) < 2 ^ 31 ∧ freshCalls (e :: h) < 2 ^ 31 := by
  simp only [counterCalls, freshCalls]
  cases hop : e.op with
  | counterSeqno =>
    rw [usable_counter_iff hrun hs hop hcounter]
    exact (and_iff_left hfresh).symm
  | stackSeqno =>
    rw [usable_stack_iff hrun hs hop hfresh]
    dsimp only
    rw [and_iff_right hcounter]
    split <;> simp_all
  | _ =>
    -- No other call returns a number of `get_seqno`.
    refine iff_of_true ?_ ⟨hcounter, hfresh⟩
    intro mode n hreturns
    cases mode <;> exact absurd (hop.symm.trans hreturns.1) (by simp)

/-- In every run, all numbers that are returned are positive, accepted as indices and, in counter
mode, new, if and only if the counter was called fewer than `2 ^ 31` times and the stack handed
out fewer than `2 ^ 31` fresh numbers. -/
theorem usable_iff (hrun : Runs Step start h f) :
    Along Usable h ↔ counterCalls h < 2 ^ 31 ∧ freshCalls h < 2 ^ 31 := by
  induction hrun with
  | start => simp [Along, counterCalls, freshCalls]
  | @next h f f' e hr hs ih =>
    have hcounter : counterCalls h ≤ counterCalls (e :: h) := counterCalls_le_cons e
    have hfresh : freshCalls h ≤ freshCalls (e :: h) := freshCalls_le_cons e
    constructor
    · rintro ⟨husable, hbefore⟩
      obtain ⟨hc, hf⟩ := ih.mp hbefore
      exact (usable_cons_iff hr hs hc hf).mp husable
    · rintro ⟨hc, hf⟩
      have hc' : counterCalls h < 2 ^ 31 := by omega
      have hf' : freshCalls h < 2 ^ 31 := by omega
      exact ⟨(usable_cons_iff hr hs hc' hf').mpr ⟨hc, hf⟩, ih.mpr ⟨hc', hf'⟩⟩

/-- Two requests, one from each mode. -/
theorem usable_bothModes : Along Usable (replay bothModes).1 :=
  (usable_iff (runs_replay bothModes)).mpr (by decide)

/-! ## §4 The run that wraps -/

/-- `k` calls of `get_seqno()`. -/
def counterRun (k : Nat) : List (Unit × Call Int) := List.replicate k ((), .getSeqno [])

theorem counterRun_succ (k : Nat) :
    ∃ e, (replay (counterRun (k + 1))).1 = e :: (replay (counterRun k)).1 ∧
      e.op = .counterSeqno ∧
      Step (replay (counterRun k)).2 e (replay (counterRun (k + 1))).2 :=
  ⟨_, rfl, rfl, 0, rfl⟩

theorem counterCalls_counterRun (k : Nat) : counterCalls (replay (counterRun k)).1 = k := by
  induction k with
  | zero => rfl
  | succ k ih =>
    obtain ⟨e, heq, hop, -⟩ := counterRun_succ k
    rw [heq]
    simp only [counterCalls, hop, ih]

/-- The last of `2 ^ 31` calls of `get_seqno()` returns a negative number. -/
theorem counter_wraps :
    Runs Step start (replay (counterRun (2 ^ 31))).1 (replay (counterRun (2 ^ 31))).2 ∧
      (replay (counterRun (2 ^ 31))).1.head?.map Event.outcome = some (.number (-2 ^ 31)) ∧
      ¬ Along Usable (replay (counterRun (2 ^ 31))).1 := by
  refine ⟨runs_replay _, ?_⟩
  obtain ⟨k, hk⟩ : ∃ k, 2 ^ 31 = k + 1 := ⟨2 ^ 31 - 1, by omega⟩
  rw [hk]
  obtain ⟨e, heq, hop, hs⟩ := counterRun_succ k
  have hout := counter_outcome (runs_replay _) hs hop
  have hwrap : wrapInt ((k : Int) + 1) = -2 ^ 31 := by
    unfold wrapInt
    omega
  rw [counterCalls_counterRun, hwrap] at hout
  rw [heq]
  constructor
  · rw [List.head?_cons, Option.map_some, hout]
  · rintro ⟨husable, -⟩
    have hpos := (husable .counter _ ⟨hop, hout⟩).1
    omega

end MyLua.MainFrame
