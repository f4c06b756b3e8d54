import MyLua.MainFrame.Bottom

/-!
# Leaks of Sequence Numbers (`cls_seqno`)

`cls_seqno` pushes a number only if it has an entry in `g_mapVal`. A client that obtained a
number and closes it without having read or stored a value under it is refused, and the number
is neither held by anybody nor on the stack: it is never issued again.

## Main results

- `accounted`: a returned number is held or on the stack, if only touched numbers are closed.
- `lost_of_untouched_close`: one close of an untouched number loses a number for ever.
- `nothingLost_of_closesTouched`: the condition under which the run leaks nothing.
-/

namespace MyLua.MainFrame

open MyLua.Foundation

variable {Num Client : Type} [LuaNumber Num] [DecidableEq Client]

/-! ## §1 Clients that close once -/

/-- What is held after an operation: closing a number gives it up, whatever `cls_seqno` does. -/
def stillHeldAfter (client : Client) (op : Op) (r : Outcome) (held : List (Client × Int)) :
    List (Client × Int) :=
  match op, r with
  | .stackSeqno, .number n => (client, n) :: held
  | .cls n, _ => held.erase (client, n)
  | _, _ => held

/-- The numbers the clients obtained from the stack and have not closed. -/
def stillHeld : List (Event Client Num) → List (Client × Int)
  | [] => []
  | e :: h => stillHeldAfter e.client e.op e.outcome (stillHeld h)

/-- The numbers held by some client. -/
def heldNumbers (h : List (Event Client Num)) : List Int := (stillHeld h).map Prod.snd

/-- Clients obtain numbers from the stack, and touch and close only numbers they hold. -/
def OnlyHeld (older : List (Event Client Num)) (e : Event Client Num) : Prop :=
  match e.op with
  | .counterSeqno => False
  | .cls n => (e.client, n) ∈ stillHeld older
  | .get n _ _ => (e.client, n) ∈ stillHeld older
  | .set n _ _ _ => (e.client, n) ∈ stillHeld older
  | _ => True

/-- A number is closed after it was read or stored into since it was closed last. -/
def ClosesTouched (older : List (Event Client Num)) (e : Event Client Num) : Prop :=
  ∀ n, e.op = .cls n → Touched older n

/-- The numbers the next `k` calls of `get_seqno("stack")` return. -/
def nextNumbers : Nat → Frame → List Int
  | 0, _ => []
  | k + 1, f =>
    match f.exec 0 .stackSeqno with
    | some (.number n, f') => n :: nextNumbers k f'
    | _ => []

/-- The number was returned by `get_seqno("stack")`. -/
def Returned (h : List (Event Client Num)) (n : Int) : Prop := ∃ e ∈ h, e.Returns .stack n

/-- No number is leaked: those below the bottom are held or on the stack, and a number that was
returned and closed can be issued again. -/
structure NothingLost (h : List (Event Client Num)) (f : Frame) : Prop where
  kept : ∀ b, f.bottom = some b → ∀ n, 1 ≤ n → n < b → n ∈ heldNumbers h ∨ n ∈ f.gStseq
  again : ∀ n, Returned h n → n ∉ heldNumbers h → ∃ k, n ∈ nextNumbers k f

variable {h : List (Event Client Num)} {f f' : Frame} {e : Event Client Num}

/-- A number on the stack is issued by one of the next calls. -/
theorem exists_mem_nextNumbers {f : Frame} {n : Int} (hn : n ∈ f.gStseq) :
    ∃ k, n ∈ nextNumbers k f := by
  cases hstack : f.gStseq with
  | nil => simp [hstack] at hn
  | cons m rest =>
    -- The induction is on the stack; what is above `n` is issued first.
    induction rest generalizing f m with
    | nil =>
      obtain rfl : n = m := by simpa [hstack] using hn
      exact ⟨1, by simp [nextNumbers, Frame.exec, hstack]⟩
    | cons m' rest ih =>
      rw [hstack] at hn
      rcases List.mem_cons.mp hn with rfl | hn
      · exact ⟨1, by simp [nextNumbers, Frame.exec, hstack]⟩
      · obtain ⟨k, hk⟩ := ih (f := { f with gStseq := m' :: rest }) hn m' rfl
        refine ⟨k + 1, ?_⟩
        simp [nextNumbers, Frame.exec, hstack, hk]

omit [DecidableEq Client] in
theorem returned_cons {n : Int} : Returned (e :: h) n ↔ e.Returns .stack n ∨ Returned h n := by
  simp only [Returned, List.mem_cons, exists_eq_or_imp]

omit [DecidableEq Client] in
/-- Only `get_seqno("stack")` returns a number. -/
theorem Returned.of_cons {n : Int} (hret : Returned (e :: h) n) (hop : e.op ≠ .stackSeqno) :
    Returned h n :=
  (returned_cons.mp hret).resolve_left fun hnow => hop hnow.1

/-- Giving up a number takes it off the held numbers. -/
theorem map_snd_erase {held : List (Client × Int)} {client : Client} {n : Int}
    (hmem : (client, n) ∈ held) :
    ((held.erase (client, n)).map Prod.snd).Perm ((held.map Prod.snd).erase n) := by
  have hperm := ((List.perm_cons_erase hmem).map Prod.snd).erase n
  simpa using hperm.symm

/-! ## §2 Closes of touched numbers lose nothing -/

omit [DecidableEq Client] in
/-- Every number below the bottom was returned. -/
theorem returned_of_lt_bottom (hrun : Runs Step start h f) {b : Int} (hb : f.bottom = some b)
    {n : Int} (hpos : 1 ≤ n) (hlt : n < b) : Returned h n := by
  induction hrun generalizing b with
  | start =>
    obtain rfl : 1 = b := by simpa [start, init, Frame.initial, Frame.bottom] using hb
    omega
  | @next h f f' e hr hs ih =>
    rw [returned_cons]
    obtain ⟨b₀, b', hb₀, hb', hcases⟩ := step_bottom hr hs
    obtain rfl : b' = b := Option.some.inj (hb'.symm.trans hb)
    rcases hcases with rfl | hreplaced
    · exact .inr (ih hb₀ hlt)
    · -- The new bottom is at most one more than the old one, which was just returned.
      have hle : b' ≤ b₀ + 1 := by
        by_cases hrange : b₀ < 2 ^ 31 - 1
        · exact Int.le_of_eq (hreplaced.successor hrange)
        · rw [bottom_eq (hr.next hs)] at hb'
          have hint := isInt_wrapInt (freshCalls (e :: h) + 1)
          rw [Option.some.inj hb'] at hint
          have hupper := hint.2
          omega
      by_cases heq : n = b₀
      · exact .inl (heq ▸ hreplaced.issued)
      · exact .inr (ih hb₀ (by omega))

/-- Closing a number leaves the other held numbers. -/
theorem mem_heldNumbers_of_cls {m n : Int} (hop : e.op = .cls m) (hne : n ≠ m)
    (hmem : n ∈ heldNumbers h) : n ∈ heldNumbers (e :: h) := by
  obtain ⟨⟨client, k⟩, hheld, rfl⟩ := List.mem_map.mp hmem
  apply List.mem_map.mpr
  refine ⟨(client, k), ?_, rfl⟩
  simp only [stillHeld, hop, stillHeldAfter]
  exact (List.mem_erase_of_ne fun heq => hne (Prod.ext_iff.mp heq).2).mpr hheld

/-- If only touched numbers are closed, a returned number is held or on the stack. -/
theorem accounted (hrun : Runs Step start h f) (htouched : Along ClosesTouched h) {n : Int}
    (hret : Returned h n) : n ∈ heldNumbers h ∨ n ∈ f.gStseq := by
  induction hrun with
  | start => obtain ⟨e, he, -⟩ := hret; cases he
  | @next h f f' e hr hs ih =>
    obtain ⟨now, op, r, hop, hout, heff⟩ := hs.effect
    cases heff with
    | @stack m rest top =>
      have hheld : heldNumbers (e :: h) = m :: heldNumbers h := by
        simp [heldNumbers, stillHeld, hop, hout, stillHeldAfter]
      rw [hheld, List.mem_cons]
      rcases returned_cons.mp hret with hnow | hbefore
      · -- The number was just returned to the caller.
        obtain rfl : m = n := by simpa [hout] using hnow.2
        exact .inl (.inl rfl)
      · rcases ih htouched.2 hbefore with hheld | hstack
        · exact .inl (.inr hheld)
        · rw [top] at hstack
          rcases List.mem_cons.mp hstack with rfl | hrest
          · exact .inl (.inl rfl)
          · have hne : rest.length ≠ 0 := Nat.ne_of_gt (List.length_pos_of_mem hrest)
            dsimp only
            rw [if_neg hne]
            exact .inr hrest
    | @closed m present =>
      have hbefore := hret.of_cons (by simp [hop])
      by_cases heq : n = m
      · exact .inr (heq ▸ List.mem_cons_self)
      · rcases ih htouched.2 hbefore with hheld | hstack
        · exact .inl (mem_heldNumbers_of_cls hop heq hheld)
        · exact .inr (List.mem_cons_of_mem m hstack)
    | @refused m absent =>
      -- A touched number has an entry, so its close is not refused.
      exact absurd absent ((count_ne_zero_iff_touched hr m).mpr (htouched.1 m hop))
    | _ =>
      have hbefore := hret.of_cons (by simp [hop])
      have hheld : heldNumbers (e :: h) = heldNumbers h := by
        simp [heldNumbers, stillHeld, hop, hout, stillHeldAfter]
      rw [hheld]
      exact ih htouched.2 hbefore

/-- Closes of touched numbers leak nothing. -/
theorem nothingLost_of_closesTouched (hrun : Runs Step start h f)
    (htouched : Along ClosesTouched h) : NothingLost h f where
  kept := by
    intro b hb n hpos hlt
    exact accounted hrun htouched (returned_of_lt_bottom hrun hb hpos hlt)
  again := by
    intro n hret hgone
    exact exists_mem_nextNumbers ((accounted hrun htouched hret).resolve_left hgone)

/-! ## §3 A refused close loses a number -/

omit [DecidableEq Client] in
/-- Issued and recycled numbers are the fresh numbers that were handed out. -/
theorem length_issued (hrun : Runs Step start h f) (hok : Along ClosesIssued h) :
    (issued h).length + recycled h = freshCalls h := by
  induction hrun with
  | start => rfl
  | @next h f f' e hr hs ih =>
    have hcount := ih hok.2
    obtain ⟨now, op, r, hop, hout, heff⟩ := hs.effect
    have htouched := count_ne_zero_iff_touched hr
    simp only [issued, issuedAfter, recycled, freshCalls, hop, hout]
    cases heff with
    | stack top =>
      simp only [List.length_cons]
      split <;> omega
    | @closed n present =>
      have ht := (htouched n).mp present
      have hmem := hok.1 n hop ht
      have hlen := List.length_erase_of_mem hmem
      have hpos := List.length_pos_of_mem hmem
      simp only [if_pos ht, hlen]
      omega
    | @refused n absent =>
      have ht : ¬ Touched h n := fun ht => (htouched n).mpr ht absent
      simp only [if_neg ht, hcount]
    | _ => exact hcount

/-- What is held was issued: a refused close only makes the difference larger. -/
theorem heldNumbers_subperm (hrun : Runs Step start h f) (hclients : Along OnlyHeld h) :
    (heldNumbers h).Subperm (issued h) := by
  induction hrun with
  | start => exact List.Subperm.refl _
  | @next h f f' e hr hs ih =>
    have hsub := ih hclients.2
    obtain ⟨now, op, r, hop, hout, heff⟩ := hs.effect
    have hclient := hclients.1
    simp only [OnlyHeld, hop] at hclient
    simp only [heldNumbers, stillHeld, stillHeldAfter, issued, issuedAfter, hop, hout]
    cases heff with
    | stack top => exact (List.subperm_cons _).mpr hsub
    | closed present => exact (map_snd_erase hclient).subperm.trans (hsub.erase _)
    | refused absent => exact (List.erase_sublist.map _).subperm.trans hsub
    | _ => exact hsub

/-- Clients that close what they hold close issued numbers. -/
theorem closesIssued_of_onlyHeld (hrun : Runs Step start h f) (hclients : Along OnlyHeld h) :
    Along ClosesIssued h := by
  refine hrun.along ?_ hclients
  intro h f e f' hr hbefore hnow _ n hop _
  simp only [OnlyHeld, hop] at hnow
  exact (heldNumbers_subperm hr hbefore).subset (List.mem_map_of_mem hnow)

omit [DecidableEq Client] in
/-- No more numbers are issued than fresh ones were handed out. -/
theorem fewIssued_of_freshCalls (hrun : Runs Step start h f) (hok : Along ClosesIssued h)
    (hfew : freshCalls h < 2 ^ 31 - 1) : Along (fun older e => FewIssued (e :: older)) h := by
  induction hrun with
  | start => trivial
  | @next h f f' e hr hs ih =>
    have hcount := length_issued (hr.next hs) hok
    have hle : freshCalls h ≤ freshCalls (e :: h) := freshCalls_le_cons e
    refine ⟨?_, ih hok.2 (by omega)⟩
    unfold FewIssued
    omega

/-- The stack of such clients is a pool, as long as few fresh numbers were handed out. -/
theorem refinesPool_of_onlyHeld (hrun : Runs Step start h f) (hclients : Along OnlyHeld h)
    (hfew : freshCalls h < 2 ^ 31 - 1) : RefinesPool h f := by
  have hok := closesIssued_of_onlyHeld hrun hclients
  exact refinesPool hrun hok (fewIssued_of_freshCalls hrun hok hfew)

/-- A number that was handed out, and that nobody holds and the stack does not have. -/
structure Lost (h : List (Event Client Num)) (f : Frame) (n : Int) : Prop where
  notHeld : n ∉ heldNumbers h
  notFree : n ∉ f.gStseq
  pos : 1 ≤ n
  le : n ≤ freshCalls h

/-- A held number is below the bottom and not on the stack. -/
theorem RefinesPool.of_mem_heldNumbers (href : RefinesPool h f) (hrun : Runs Step start h f)
    (hclients : Along OnlyHeld h) (hfew : freshCalls h < 2 ^ 31 - 1) {n : Int}
    (hmem : n ∈ heldNumbers h) : n ∉ f.gStseq ∧ 1 ≤ n ∧ n ≤ freshCalls h := by
  have hissued : n ∈ (poolOf h).out := by
    rw [href.out]
    exact (heldNumbers_subperm hrun hclients).subset hmem
  have hrange := (href.valid.mem_iff n).mp (List.mem_append_right _ hissued)
  have hbottom := bottom_of_lt hrun hfew
  rw [Frame.bottom, ← href.stack, Pool.stack, List.getLast?_concat] at hbottom
  have hnext := Option.some.inj hbottom
  refine ⟨fun hfree => ?_, hrange.1, by omega⟩
  rw [← href.stack] at hfree
  exact Pool.notMem_out_of_mem_stack href.valid hfree hissued

/-- A close that is refused loses the number. -/
theorem lost_of_refused (hrun : Runs Step start h f) (hclients : Along OnlyHeld h)
    (hfew : freshCalls h < 2 ^ 31 - 1) (hs : Step f e f') {n : Int} (hop : e.op = .cls n)
    (hheld : (e.client, n) ∈ stillHeld h) (hnot : ¬ Touched h n) : Lost (e :: h) f' n := by
  have href := refinesPool_of_onlyHeld hrun hclients hfew
  have hmem : n ∈ heldNumbers h := List.mem_map_of_mem hheld
  obtain ⟨hfree, hpos, hle⟩ := href.of_mem_heldNumbers hrun hclients hfew hmem
  rcases step_cls hs hop with ⟨hcount, -, -⟩ | ⟨-, -, rfl⟩
  · exact absurd ((count_ne_zero_iff_touched hrun n).mp hcount) hnot
  · refine ⟨?_, hfree, hpos, ?_⟩
    · -- Every number is held once, so its holder was the only one.
      have hnodup : (heldNumbers h).Nodup := by
        have hout := Pool.nodup_out href.valid
        rw [href.out] at hout
        obtain ⟨l, hperm, hsub⟩ := heldNumbers_subperm hrun hclients
        exact hperm.nodup_iff.mp (hout.sublist hsub)
      have herase : heldNumbers (e :: h) = ((stillHeld h).erase (e.client, n)).map Prod.snd := by
        simp only [heldNumbers, stillHeld, hop, stillHeldAfter]
      rw [herase, (map_snd_erase hheld).mem_iff]
      exact hnodup.not_mem_erase
    · have hle' : freshCalls h ≤ freshCalls (e :: h) := freshCalls_le_cons e
      omega

/-- A lost number stays lost. -/
theorem Lost.step {n : Int} (hlost : Lost h f n) (hrun : Runs Step start h f)
    (hs : Step f e f') (hclient : OnlyHeld h e) (hfew : freshCalls (e :: h) < 2 ^ 31 - 1) :
    Lost (e :: h) f' n := by
  have hle : freshCalls h ≤ freshCalls (e :: h) := freshCalls_le_cons e
  have hbottom := bottom_of_lt (hrun.next hs) hfew
  obtain ⟨hheld, hfree, hpos, hlen⟩ := hlost
  obtain ⟨now, op, r, hop, hout, heff⟩ := hs.effect
  simp only [OnlyHeld, hop] at hclient
  refine ⟨?_, ?_, hpos, by omega⟩
  · simp only [heldNumbers, stillHeld, stillHeldAfter, hop, hout]
    cases heff with
    | stack top =>
      rw [top] at hfree
      rw [List.map_cons, List.mem_cons, not_or]
      exact ⟨fun heq => hfree (heq ▸ List.mem_cons_self), hheld⟩
    | closed present => exact fun hmem => hheld ((List.erase_sublist.map _).subset hmem)
    | refused absent => exact fun hmem => hheld ((List.erase_sublist.map _).subset hmem)
    | _ => exact hheld
  · cases heff with
    | @stack m rest top =>
      by_cases hrest : rest.length = 0
      · -- The new bottom is above everything that was handed out.
        simp only [Frame.bottom, if_pos hrest, List.getLast?_singleton] at hbottom
        have hnew := Option.some.inj hbottom
        simp only [if_pos hrest, List.mem_singleton]
        omega
      · simp only [if_neg hrest]
        rw [top] at hfree
        exact fun hmem => hfree (List.mem_cons_of_mem m hmem)
    | @closed m present =>
      -- The closed number was held, the lost one is not.
      have hm : m ∈ heldNumbers h := List.mem_map_of_mem hclient
      rw [List.mem_cons, not_or]
      exact ⟨fun heq => hheld (heq ▸ hm), hfree⟩
    | _ => exact hfree

/-- After a close of an untouched number, some number is lost for ever. -/
theorem lost_of_untouched_close (hrun : Runs Step start h f) (hclients : Along OnlyHeld h)
    (hfew : freshCalls h < 2 ^ 31 - 1) (hnot : ¬ Along ClosesTouched h) : ∃ n, Lost h f n := by
  induction hrun with
  | start => exact absurd trivial hnot
  | @next h f f' e hr hs ih =>
    have hle : freshCalls h ≤ freshCalls (e :: h) := freshCalls_le_cons e
    by_cases hbefore : Along ClosesTouched h
    · -- The last call closed an untouched number.
      have hnow : ¬ ClosesTouched h e := fun hnow => hnot ⟨hnow, hbefore⟩
      simp only [ClosesTouched, not_forall] at hnow
      obtain ⟨n, hop, huntouched⟩ := hnow
      have hheld := hclients.1
      simp only [OnlyHeld, hop] at hheld
      exact ⟨n, lost_of_refused hr hclients.2 (by omega) hs hop hheld huntouched⟩
    · obtain ⟨n, hlost⟩ := ih hclients.2 (by omega) hbefore
      exact ⟨n, hlost.step hr hs hclients.1 hfew⟩

/-- Clients that obtain their numbers from the stack, touch only what they hold and close it once
leak no number if every number was read or stored into before it was closed; and while fewer than
`2 ^ 31 - 1` fresh numbers were handed out, they leak a number if one was not. -/
theorem nothingLost_iff (hrun : Runs Step start h f) (hclients : Along OnlyHeld h) :
    (Along ClosesTouched h → NothingLost h f) ∧
      (freshCalls h < 2 ^ 31 - 1 → NothingLost h f → Along ClosesTouched h) := by
  refine ⟨nothingLost_of_closesTouched hrun, fun hfew hnothing => ?_⟩
  by_contra hnot
  obtain ⟨n, hlost⟩ := lost_of_untouched_close hrun hclients hfew hnot
  have hle := hlost.le
  rcases hnothing.kept _ (bottom_of_lt hrun hfew) n hlost.pos (by omega) with hheld | hfree
  · exact hlost.notHeld hheld
  · exact hlost.notFree hfree

/-- A client obtains a number, stores a value under it and closes it. -/
def storedAndClosed : List (Unit × Call Int) :=
  [((), .clsSeqno [.number 1]),
    ((), .setValue [.number 1, .string [97], .string [98], .string [99]]),
    ((), .getSeqno [.string (ascii "stack")])]

theorem nothingLost_storedAndClosed :
    NothingLost (replay storedAndClosed).1 (replay storedAndClosed).2 := by
  have hheld : ((), 1) ∈ stillHeld (replay (storedAndClosed.drop 1)).1 := by decide
  have htouched : Along ClosesTouched (replay storedAndClosed).1 := by
    refine ⟨?_, (nomatch ·, ·), (nomatch ·, ·), trivial⟩
    rintro n ⟨⟩
    decide
  exact (nothingLost_iff (runs_replay storedAndClosed) ⟨hheld, hheld, trivial, trivial⟩).1 htouched

/-- A client obtains a number and closes it. -/
def closedUnused : List (Unit × Call Int) :=
  [((), .clsSeqno [.number 1]), ((), .getSeqno [.string (ascii "stack")])]

/-- The close is refused: nobody holds the number 1 any more, and the stack has only 2. -/
theorem closedUnused_leaks :
    ¬ ∀ (h : List (Event Unit Int)) (f : Frame), Runs Step start h f → Along OnlyHeld h →
      NothingLost h f := by
  intro hall
  have hheld : ((), 1) ∈ stillHeld (replay (closedUnused.drop 1)).1 := by decide
  have hnothing := hall _ _ (runs_replay closedUnused) ⟨hheld, trivial, trivial⟩
  have hkept := hnothing.kept 2 (by decide) 1 (by decide) (by decide)
  revert hkept
  decide

end MyLua.MainFrame
