import MyLua.MainFrame.Modes

/-!
# The Bottom of the Stack (`get_seqno("stack")`)

The bottom element of `g_stseq` is the next fresh number. What lies above it was pushed by
`cls_seqno`, so the bottom is popped only when it is alone, and then its successor replaces
it. How many numbers lie above it, and how often it was replaced, follow from the calls.

## Main results

- `gStseq_eq`: the stack of a run, from its history.
- `step_bottom`: what one call can do to the bottom.
- `bottom_succession`: the stack never underflows, and its bottom only ever grows by being
  issued, within the range of an `int`.
-/

namespace MyLua.MainFrame

open MyLua.Foundation

variable {Num Client : Type} [LuaNumber Num]

/-! ## §1 Recycled and fresh numbers -/

/-- The bottom element of the stack. -/
def Frame.bottom (f : Frame) : Option Int := f.gStseq.getLast?

instance touch.decidable (op : Op) (P : Int → Prop) [DecidablePred P] (n : Int) :
    Decidable (touch op P n) :=
  match op with
  | .get _ _ _ => inferInstanceAs (Decidable (_ ∨ _))
  | .set _ _ _ _ => inferInstanceAs (Decidable (_ ∨ _))
  | .cls _ => inferInstanceAs (Decidable (_ ∧ _))
  | .stackSeqno => inferInstanceAs (Decidable (P n))
  | .counterSeqno => inferInstanceAs (Decidable (P n))
  | .rejected => inferInstanceAs (Decidable (P n))

instance Touched.decidable : (h : List (Event Client Num)) → DecidablePred (Touched h)
  | [] => fun _ => instDecidableFalse
  | e :: h => fun n =>
    have := Touched.decidable h
    decidable_of_iff (touch e.op (Touched h) n) (touched_cons e h n).symm

/-- How many numbers were closed after they were touched and have not been issued again. -/
def recycled : List (Event Client Num) → Nat
  | [] => 0
  | e :: h =>
    match e.op with
    | .stackSeqno => recycled h - 1
    | .cls n => if Touched h n then recycled h + 1 else recycled h
    | _ => recycled h

/-- The calls of `get_seqno("stack")` that were made when no recycled number was left. -/
def freshCalls : List (Event Client Num) → Nat
  | [] => 0
  | e :: h =>
    match e.op with
    | .stackSeqno => if recycled h = 0 then freshCalls h + 1 else freshCalls h
    | _ => freshCalls h

variable {h : List (Event Client Num)} {f : Frame}

theorem freshCalls_le_cons (e : Event Client Num) : freshCalls h ≤ freshCalls (e :: h) := by
  simp only [freshCalls]
  split
  · split <;> omega
  · exact Nat.le_refl _

theorem freshCalls_le_append (later : List (Event Client Num)) :
    freshCalls h ≤ freshCalls (later ++ h) := by
  induction later with
  | nil => exact Nat.le_refl _
  | cons e later ih => exact Nat.le_trans ih (freshCalls_le_cons e)

/-! ## §2 Touched numbers are positive -/

/-- An operation with an index touches only its index, which is positive. -/
theorem pos_of_touch_indexed {index : Option Int} {op : Int → Option Op} {n : Int}
    (hop : ∀ m o, op m = some o → touch o (fun _ => False) n → n = m)
    (ht : touch (indexed index op) (fun _ => False) n) : 0 < n := by
  cases index with
  | none => exact ht.elim
  -- The index check comes first: without it the operation is refused and touches nothing.
  | some m =>
    simp only [indexed] at ht
    split at ht
    · exact ht.elim
    · cases ho : op m with
      | none =>
        rw [ho] at ht
        exact ht.elim
      | some o =>
        rw [ho] at ht
        have heq := hop m o ho ht
        omega

/-- What a call touches is positive. -/
theorem Call.pos_of_touch {c : Call Num} {n : Int} (ht : touch c.op (fun _ => False) n) :
    0 < n := by
  cases c with
  | getSeqno L =>
    simp only [Call.op] at ht
    split at ht <;> exact ht.elim
  | clsSeqno L => exact ht.2.elim
  | getValue L =>
    apply pos_of_touch_indexed _ ht
    intro m o ho ht
    simp only [Option.bind_eq_bind, Option.bind_eq_some_iff, Option.pure_def,
      Option.some.injEq] at ho
    obtain ⟨k1, -, k2, -, rfl⟩ := ho
    exact ht.resolve_right id
  | setValue L =>
    apply pos_of_touch_indexed _ ht
    intro m o ho ht
    simp only [Option.bind_eq_bind, Option.bind_eq_some_iff, Option.pure_def,
      Option.some.injEq] at ho
    obtain ⟨k1, -, k2, -, v, -, rfl⟩ := ho
    exact ht.resolve_right id

/-- What an operation touches was touched before, or the operation touches it by itself. -/
theorem touch_cases {op : Op} {P : Int → Prop} {n : Int} (ht : touch op P n) :
    touch op (fun _ => False) n ∨ P n := by
  cases op with
  | get m k1 k2 => exact ht.imp_left .inl
  | set m k1 k2 v => exact ht.imp_left .inl
  | cls m => exact .inr ht.2
  | _ => exact .inr ht

/-- Every touched number is positive. -/
theorem pos_of_touched {n : Int} (ht : Touched h n) : 0 < n := by
  induction h with
  | nil => exact ht.elim
  | cons e h ih =>
    -- This call touched the number, or an earlier one did.
    rw [touched_cons] at ht
    rcases touch_cases ht with hnow | hbefore
    · exact Call.pos_of_touch hnow
    · exact ih hbefore

/-! ## §3 The stack of a run -/

/-- The stack consists of the recycled numbers, which are positive, and of the next fresh number
at the bottom. -/
theorem gStseq_eq (hrun : Runs Step start h f) :
    ∃ above, f.gStseq = above ++ [wrapInt (freshCalls h + 1)] ∧ above.length = recycled h ∧
      ∀ n ∈ above, 0 < n := by
  induction hrun with
  | start => exact ⟨[], by simp [start, init, Frame.initial, freshCalls, wrapInt], rfl, by simp⟩
  | @next h f f' e hr hs ih =>
    obtain ⟨above, hstack, hlen, hpos⟩ := ih
    obtain ⟨now, op, r, hop, -, heff⟩ := hs.effect
    have htouched := count_ne_zero_iff_touched hr
    simp only [freshCalls, recycled, hop]
    cases heff with
    | stack top =>
      rw [hstack] at top
      cases above with
      | nil =>
        -- The bottom is alone: it is issued, and its successor takes its place.
        obtain ⟨rfl, rfl⟩ := List.cons.inj top
        refine ⟨[], ?_, ?_, by simp⟩
        · simp [← hlen, wrapInt_wrapInt_add_one]
        · simp [← hlen]
      | cons m above =>
        -- A recycled number is issued, and the bottom stays.
        obtain ⟨rfl, rfl⟩ := List.cons.inj top
        refine ⟨above, ?_, ?_, fun n hn => hpos n (List.mem_cons_of_mem _ hn)⟩
        · simp [← hlen]
        · simp [← hlen]
    | @closed n present =>
      -- A number that has an entry was touched; it goes on top.
      have ht := (htouched n).mp present
      refine ⟨n :: above, ?_, ?_, ?_⟩
      · dsimp only
        rw [hstack, List.cons_append]
      · simp only [if_pos ht, List.length_cons, hlen]
      · intro m hm
        rcases List.mem_cons.mp hm with rfl | hm
        · exact pos_of_touched ht
        · exact hpos m hm
    -- A number without an entry was not touched, so it is not counted as recycled.
    | @refused n absent =>
      have ht : ¬ Touched h n := fun ht => (htouched n).mpr ht absent
      refine ⟨above, hstack, ?_, hpos⟩
      simp only [if_neg ht, hlen]
    | _ => exact ⟨above, hstack, hlen, hpos⟩

/-- The bottom counts the fresh numbers that were issued. -/
theorem bottom_eq (hrun : Runs Step start h f) :
    f.bottom = some (wrapInt (freshCalls h + 1)) := by
  obtain ⟨above, hstack, -, -⟩ := gStseq_eq hrun
  rw [Frame.bottom, hstack, List.getLast?_concat]

/-- While fewer than `2 ^ 31 - 1` fresh numbers were issued, the bottom is one more than they. -/
theorem bottom_of_lt (hrun : Runs Step start h f) (hfew : freshCalls h < 2 ^ 31 - 1) :
    f.bottom = some ((freshCalls h : Int) + 1) := by
  rw [bottom_eq hrun, wrapInt_of_isInt ⟨by omega, by omega⟩]

/-! ## §4 Calls and the bottom -/

/-- The bottom was issued as the only element of the stack, and its successor took its place. -/
structure Replaced (f : Frame) (e : Event Client Num) (f' : Frame) (b b' : Int) : Prop where
  issued : e.Returns .stack b
  alone : f.gStseq = [b]
  replaced : f'.gStseq = [b']
  successor : b < 2 ^ 31 - 1 → b' = b + 1

/-- A call leaves the bottom where it is, or issues it and replaces it. -/
theorem Step.bottom {f' : Frame} {e : Event Client Num} (hs : Step f e f') {above : List Int}
    {b : Int} (hstack : f.gStseq = above ++ [b]) (hint : IsInt b) :
    ∃ b', f'.bottom = some b' ∧ (b' = b ∨ Replaced f e f' b b') := by
  obtain ⟨now, op, r, hop, hout, heff⟩ := hs.effect
  cases heff with
  | stack top =>
    rw [hstack] at top
    cases above with
    | nil =>
      obtain ⟨rfl, rfl⟩ := List.cons.inj top
      -- Only the bottom is there to be issued.
      refine ⟨wrapInt (b + 1), ?_, .inr ⟨⟨hop, hout⟩, hstack, ?_, fun hlt => ?_⟩⟩
      · simp [Frame.bottom]
      · simp
      · have hlower := hint.1
        exact wrapInt_of_isInt ⟨by omega, by omega⟩
    | cons m above =>
      obtain ⟨rfl, rfl⟩ := List.cons.inj top
      refine ⟨b, ?_, .inl rfl⟩
      simp [Frame.bottom]
  | closed present =>
    -- A closed number comes above the bottom.
    refine ⟨b, ?_, .inl rfl⟩
    rw [Frame.bottom, hstack, ← List.cons_append, List.getLast?_concat]
  | _ => exact ⟨b, by rw [Frame.bottom, hstack, List.getLast?_concat], .inl rfl⟩

/-- What a call of a run does to the bottom. -/
theorem step_bottom {f' : Frame} {e : Event Client Num} (hrun : Runs Step start h f)
    (hs : Step f e f') :
    ∃ b b', f.bottom = some b ∧ f'.bottom = some b' ∧ (b' = b ∨ Replaced f e f' b b') := by
  obtain ⟨above, hstack, -, -⟩ := gStseq_eq hrun
  obtain ⟨b', hb', hcases⟩ := hs.bottom hstack (isInt_wrapInt _)
  exact ⟨_, b', bottom_eq hrun, hb', hcases⟩

/-- After every run of calls with any arguments: the stack is not empty, and every further call
finds an element to pop; a further call changes the bottom only by issuing it alone and putting
its successor in its place; and as long as the bottom is within the range of an `int`, it never
decreases. -/
theorem bottom_succession (hrun : Runs Step start h f) :
    (f.gStseq ≠ [] ∧ ∀ now (c : Call Num), (c.run now f).isSome) ∧
      (∀ (e : Event Client Num) f', Step f e f' →
        ∃ b b', f.bottom = some b ∧ f'.bottom = some b' ∧ (b' = b ∨ Replaced f e f' b b')) ∧
      ∀ (later : List (Event Client Num)) f', Runs Step f later f' →
        freshCalls (later ++ h) < 2 ^ 31 - 1 →
        ∃ b b', f.bottom = some b ∧ f'.bottom = some b' ∧ b ≤ b' := by
  refine ⟨⟨gStseq_ne_nil hrun, call_isSome hrun⟩, fun e f' hs => step_bottom hrun hs, ?_⟩
  intro later f' hlater hfew
  -- Both bottoms are one more than the fresh numbers issued until then.
  have hle : freshCalls h ≤ freshCalls (later ++ h) := freshCalls_le_append later
  refine ⟨_, _, bottom_of_lt hrun (by omega), bottom_of_lt (hrun.trans hlater) hfew, ?_⟩
  omega

/-- A number is issued, stored into and closed, and then two more are issued. -/
def issuedAgain : List (Unit × Call Int) :=
  [((), .getSeqno [.string (ascii "stack")]),
    ((), .getSeqno [.string (ascii "stack")]),
    ((), .clsSeqno [.number 1]),
    ((), .setValue [.number 1, .string [97], .string [98], .string [99]]),
    ((), .getSeqno [.string (ascii "stack")])]

theorem bottom_succession_issuedAgain :
    (replay issuedAgain).2.gStseq = [3] ∧
      ((Call.getSeqno [.string (ascii "stack")] : Call Int).run 0 (replay issuedAgain).2).isSome :=
  ⟨by decide, (bottom_succession (runs_replay issuedAgain)).1.2 0 _⟩

end MyLua.MainFrame
