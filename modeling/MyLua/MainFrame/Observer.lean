import MyLua.MainFrame.FreeList

/-!
# Reads That Are Seen (`get_value`)

A call of `get_value` should only look. It goes through `operator[]` of `std::map`, which inserts
the entry it does not find, and `set_value` and `cls_seqno` look whether there is an entry: the
first stamps new ones, the second takes back only numbers with one. Here a run is compared with
the same run without some of its reads.

## Main results

- `alike_exec`: an operation that no inserted read disturbs is the same in both runs.
- `seen_ne_of_disturbed`: one that is disturbed shows it at once.
- `observer_iff`: inserted reads go unnoticed exactly if no close, and no store at a nonzero time,
  is about a number that only they have touched.
- `get_value_seen`: a number that was only read is taken back.
-/

namespace MyLua.MainFrame

open MyLua.Foundation

variable {Num Client : Type} [LuaNumber Num]

/-! ## §1 Runs with inserted reads -/

/-- A call of the run itself, at some time, or an inserted call of `get_value`. -/
inductive Item (Num : Type) where
  | own (now : Int) (c : Call Num)
  | read (L : List (LuaValue Num))

/-- What is seen of a call: its outcome, and the stamp of the node it stored into. -/
structure Seen where
  outcome : Outcome
  tm : Option Int
  deriving DecidableEq, Repr

/-- `g_mapVal[n].tm` after a store under `n`. -/
def stampOf (op : Op) (f : Frame) : Option Int :=
  match op with
  | .set n _ _ _ => some (f.gMapVal.get n).tm
  | _ => none

/-- What is seen of the calls of the run itself. -/
def results : List (Item Num) → Frame → Option (List Seen)
  | [], _ => some []
  | .own now c :: is, f => do
    let (outcome, f') ← c.run now f
    let seen ← results is f'
    return { outcome, tm := stampOf c.op f' } :: seen
  | .read L :: is, f => results is (getValue L f).2

/-- The same run without the inserted reads. -/
def withoutReads : List (Item Num) → List (Item Num)
  | [] => []
  | .own now c :: is => .own now c :: withoutReads is
  | .read _ :: is => withoutReads is

/-- The inserted reads change nothing that is seen of the other calls. -/
def Observer (f : Frame) (is : List (Item Num)) : Prop :=
  ∃ seen, results (withoutReads is) f = some seen ∧ results is f = some seen

/-- The operation does not depend on an entry that is there only if the inserted reads are made:
`own` are the numbers with an entry without them, `all` those with one. -/
def Undisturbed (own all : Int → Prop) (now : Int) : Op → Prop
  | .cls n => all n → own n
  | .set n _ _ _ => now ≠ 0 → all n → own n
  | _ => True

/-- No call of the run is disturbed, where `own` and `all` have an entry before it. -/
def ReadsHarmless (own all : Int → Prop) : List (Item Num) → Prop
  | [] => True
  | .own now c :: is =>
    Undisturbed own all now c.op ∧ ReadsHarmless (touch c.op own) (touch c.op all) is
  | .read L :: is => ReadsHarmless own (touch (Call.getValue L).op all) is

/-! ## §2 Maps that hold the same -/

theorem tm_putAt (m : StdMap Int Node) (n n' : Int) (k1 k2 v : Bytes) :
    ((putAt m n k1 k2 v).get n').tm = (m.get n').tm := by
  rw [putAt, StdMap.get_set]
  split
  · rename_i heq
    rw [heq]
  · rfl

theorem tm_stamp (now : Int) (m : StdMap Int Node) (n n' : Int) :
    ((stamp now m n).get n').tm = if n' = n ∧ m.count n = 0 then now else (m.get n').tm := by
  unfold stamp
  by_cases hcount : m.count n = 0
  · simp only [hcount, if_true, and_true, StdMap.get_set]
    split <;> rfl
  · simp only [hcount, if_false, and_false]

theorem tm_erase (m : StdMap Int Node) (n n' : Int) :
    ((m.erase n).get n').tm = if n' = n then 0 else (m.get n').tm := by
  rw [StdMap.get_erase]
  split <;> rfl

/-- A number without an entry would get a node with the stamp 0. -/
theorem tm_of_count_eq_zero {m : StdMap Int Node} {n : Int} (h : m.count n = 0) :
    (m.get n).tm = 0 := by
  rw [StdMap.get, StdMap.count_eq_zero.mp h]
  rfl

theorem tm_stamp_zero (m : StdMap Int Node) (n n' : Int) :
    ((stamp 0 m n).get n').tm = (m.get n').tm := by
  rw [tm_stamp]
  split
  · rename_i hnew
    -- A new node gets the stamp 0, which is what an absent one has.
    rw [hnew.1, tm_of_count_eq_zero hnew.2]
  · rfl

/-- Two maps with the same strings and stamps; their entries may differ. -/
structure SameContent (m m' : StdMap Int Node) : Prop where
  value : ∀ n k1 k2, valueAt m' n k1 k2 = valueAt m n k1 k2
  tm : ∀ n, (m'.get n).tm = (m.get n).tm

variable {m m' : StdMap Int Node}

theorem SameContent.putAt (hm : SameContent m m') (n : Int) (k1 k2 v : Bytes) :
    SameContent (putAt m n k1 k2 v) (MainFrame.putAt m' n k1 k2 v) := by
  refine ⟨?_, ?_⟩
  · intro n' k1' k2'
    rw [valueAt_putAt, valueAt_putAt, hm.value]
  · intro n'
    rw [tm_putAt, tm_putAt, hm.tm]

/-- A read stores back what it found. -/
theorem SameContent.read (hm : SameContent m m') (n : Int) (k1 k2 : Bytes) :
    SameContent m (MainFrame.putAt m' n k1 k2 (valueAt m' n k1 k2)) := by
  refine ⟨?_, ?_⟩
  · intro n' k1' k2'
    rw [valueAt_putAt]
    split
    · rename_i heq
      obtain ⟨rfl, rfl, rfl⟩ := heq
      -- At the keys that were read the string is the one that was found there.
      exact hm.value n' k1' k2'
    · exact hm.value n' k1' k2'
  · intro n'
    rw [tm_putAt, hm.tm]

theorem SameContent.erase (hm : SameContent m m') (n : Int) :
    SameContent (m.erase n) (m'.erase n) := by
  refine ⟨?_, ?_⟩
  · intro n' k1 k2
    rw [valueAt_erase, valueAt_erase, hm.value]
  · intro n'
    rw [tm_erase, tm_erase, hm.tm]

/-- Stamps agree if both nodes are new or both are old, or if the stamp is 0. -/
theorem SameContent.stamp {now : Int} {n : Int} (hm : SameContent m m')
    (hnew : now ≠ 0 → (m'.count n = 0 ↔ m.count n = 0)) :
    SameContent (stamp now m n) (MainFrame.stamp now m' n) := by
  refine ⟨?_, ?_⟩
  · intro n' k1 k2
    rw [valueAt_stamp, valueAt_stamp, hm.value]
  · intro n'
    by_cases hnow : now = 0
    · rw [hnow, tm_stamp_zero, tm_stamp_zero, hm.tm]
    · rw [tm_stamp, tm_stamp, hm.tm]
      simp only [hnew hnow]

/-! ## §3 Two runs side by side -/

/-- The globals `f` without the inserted reads and `g` with them: they differ only in which
numbers have an entry. -/
structure Alike (own all : Int → Prop) (f g : Frame) : Prop where
  stack : g.gStseq = f.gStseq
  nonempty : f.gStseq ≠ []
  seqno : g.seqno = f.seqno
  content : SameContent f.gMapVal g.gMapVal
  without : ∀ n, f.gMapVal.count n ≠ 0 ↔ own n
  withReads : ∀ n, g.gMapVal.count n ≠ 0 ↔ all n
  sub : ∀ n, own n → all n

variable {own all : Int → Prop} {f g : Frame} {now : Int} {op : Op}

theorem touch_mono (hsub : ∀ n, own n → all n) (op : Op) (n : Int) (h : touch op own n) :
    touch op all n := by
  cases op with
  -- Reads and stores touch one number more; a close takes one away from both.
  | get m k1 k2 => exact h.imp_right (hsub n)
  | set m k1 k2 v => exact h.imp_right (hsub n)
  | cls m => exact ⟨h.1, hsub n h.2⟩
  | _ => exact hsub n h

/-- A number with an entry in one run has one in the other, unless only inserted reads touched
it. -/
theorem Alike.count_iff (ha : Alike own all f g) {n : Int} (hown : all n → own n) :
    g.gMapVal.count n ≠ 0 ↔ f.gMapVal.count n ≠ 0 := by
  rw [ha.without, ha.withReads]
  exact ⟨hown, ha.sub n⟩

/-- An operation that is made in both runs touches the same number in both. -/
theorem Alike.exec {f' g' : Frame} {r r' : Outcome} (ha : Alike own all f g)
    (hf : f.exec now op = some (r, f')) (hg : g.exec now op = some (r', g'))
    (hstack : g'.gStseq = f'.gStseq) (hseqno : g'.seqno = f'.seqno)
    (hcontent : SameContent f'.gMapVal g'.gMapVal) :
    Alike (touch op own) (touch op all) f' g' where
  stack := hstack
  nonempty := (exec_cases hf).gStseq_ne_nil ha.nonempty
  seqno := hseqno
  content := hcontent
  without n := (count_effect (exec_cases hf) n).trans (touch_congr ha.without op n)
  withReads n := (count_effect (exec_cases hg) n).trans (touch_congr ha.withReads op n)
  sub n := touch_mono ha.sub op n

/-- The operation of `get_value`: a read, or none. -/
theorem Call.op_getValue (L : List (LuaValue Num)) :
    (∃ n k1 k2, (Call.getValue L).op = .get n k1 k2) ∨ (Call.getValue L).op = .rejected := by
  simp only [Call.op, indexed]
  cases getDataInt (luaArg L 1) with
  | none => exact .inr rfl
  | some n =>
    by_cases hn : n ≤ 0
    · exact .inr (if_pos hn)
    · simp only [if_neg hn]
      cases getDataString (luaArg L 2) with
      | none => exact .inr rfl
      | some k1 =>
        cases getDataString (luaArg L 3) with
        | none => exact .inr rfl
        | some k2 => exact .inl ⟨n, k1, k2, rfl⟩

/-- A read in one of the runs makes an entry there, and nothing else. -/
theorem alike_get {g' : Frame} {r : Outcome} {n : Int} {k1 k2 : Bytes} (ha : Alike own all f g)
    (hg : g.exec now (.get n k1 k2) = some (r, g')) :
    Alike own (touch (.get n k1 k2) all) f g' := by
  have hcount := count_effect (exec_cases hg)
  cases hg
  refine ⟨ha.stack, ha.nonempty, ha.seqno, ha.content.read n k1 k2, ha.without, ?_, ?_⟩
  · intro n'
    exact (hcount n').trans (touch_congr ha.withReads _ n')
  · intro n' hown
    exact .inr (ha.sub n' hown)

theorem alike_read (ha : Alike own all f g) (L : List (LuaValue Num)) :
    Alike own (touch (Call.getValue L).op all) f (getValue L g).2 := by
  have hrun : g.exec 0 (Call.getValue L).op = some (getValue L g) :=
    (Call.run_eq_exec 0 (.getValue L) g).symm
  -- The call reads, or its arguments are refused.
  rcases Call.op_getValue L with ⟨n, k1, k2, hop⟩ | hop
  · rw [hop] at hrun ⊢
    exact alike_get ha hrun
  · -- A call that is refused does nothing.
    rw [hop] at hrun ⊢
    have hsame : getValue L g = (.nothing, g) := (Option.some.inj hrun).symm
    rw [hsame]
    exact ha

/-- An operation that is not disturbed is seen the same, and leaves the two runs alike. -/
theorem alike_exec (ha : Alike own all f g) (hok : Undisturbed own all now op) :
    ∃ r f' g', f.exec now op = some (r, f') ∧ g.exec now op = some (r, g') ∧
      stampOf op g' = stampOf op f' ∧ Alike (touch op own) (touch op all) f' g' := by
  have hcontent := ha.content
  have hstack := ha.stack
  cases op with
  | stackSeqno =>
    -- The stacks are the same, so the same number is popped from both.
    obtain ⟨n, rest, htop⟩ := List.exists_cons_of_ne_nil ha.nonempty
    rw [htop] at hstack
    have hf : f.exec now .stackSeqno = some (.number n, { f with
        gStseq := if rest.length = 0 then [wrapInt (n + 1)] else rest }) := by
      simp only [Frame.exec, htop]
    have hg : g.exec now .stackSeqno = some (.number n, { g with
        gStseq := if rest.length = 0 then [wrapInt (n + 1)] else rest }) := by
      simp only [Frame.exec, hstack]
    exact ⟨_, _, _, hf, hg, rfl, ha.exec hf hg rfl ha.seqno hcontent⟩
  | counterSeqno =>
    have hf : f.exec now .counterSeqno = some (.number f.seqno, { f with
        seqno := wrapInt (f.seqno + 1) }) := rfl
    have hg : g.exec now .counterSeqno = some (.number f.seqno, { g with
        seqno := wrapInt (f.seqno + 1) }) := by
      rw [Frame.exec, ha.seqno]
    exact ⟨_, _, _, hf, hg, rfl, ha.exec hf hg hstack rfl hcontent⟩
  | cls n =>
    -- The number has an entry in both runs, or in none.
    have hiff := ha.count_iff hok
    by_cases hcount : f.gMapVal.count n = 0
    · have hcount' : g.gMapVal.count n = 0 := (not_iff_not.mp hiff).mpr hcount
      have hf : f.exec now (.cls n) = some (.wrong n, f) := if_pos hcount
      have hg : g.exec now (.cls n) = some (.wrong n, g) := if_pos hcount'
      exact ⟨_, _, _, hf, hg, rfl, ha.exec hf hg hstack ha.seqno hcontent⟩
    · have hcount' : g.gMapVal.count n ≠ 0 := hiff.mpr hcount
      have hf : f.exec now (.cls n) = some (.nothing, { f with
          gMapVal := f.gMapVal.erase n, gStseq := n :: f.gStseq }) := if_neg hcount
      have hg : g.exec now (.cls n) = some (.nothing, { g with
          gMapVal := g.gMapVal.erase n, gStseq := n :: g.gStseq }) := if_neg hcount'
      exact ⟨_, _, _, hf, hg, rfl,
        ha.exec hf hg (congrArg (n :: ·) hstack) ha.seqno (hcontent.erase n)⟩
  | get n k1 k2 =>
    -- The string that is read is in both maps.
    have hvalue := hcontent.value n k1 k2
    have hf : f.exec now (.get n k1 k2) = some (.text (cut (valueAt f.gMapVal n k1 k2)),
        { f with gMapVal := putAt f.gMapVal n k1 k2 (valueAt f.gMapVal n k1 k2) }) := rfl
    have hg : g.exec now (.get n k1 k2) = some (.text (cut (valueAt f.gMapVal n k1 k2)),
        { g with gMapVal := putAt g.gMapVal n k1 k2 (valueAt f.gMapVal n k1 k2) }) := by
      simp only [Frame.exec, hvalue]
    exact ⟨_, _, _, hf, hg, rfl,
      ha.exec hf hg hstack ha.seqno (hcontent.putAt n k1 k2 _)⟩
  | set n k1 k2 v =>
    -- The node is new in both runs, or old in both, unless the stamp is 0 anyway.
    have hnew : now ≠ 0 → (g.gMapVal.count n = 0 ↔ f.gMapVal.count n = 0) := by
      intro hnow
      exact not_iff_not.mp (ha.count_iff (hok hnow))
    have hstored := (hcontent.stamp hnew).putAt n k1 k2 v
    have hf : f.exec now (.set n k1 k2 v) = some (.nothing, { f with
        gMapVal := putAt (stamp now f.gMapVal n) n k1 k2 v }) := rfl
    have hg : g.exec now (.set n k1 k2 v) = some (.nothing, { g with
        gMapVal := putAt (stamp now g.gMapVal n) n k1 k2 v }) := rfl
    exact ⟨_, _, _, hf, hg, congrArg some (hstored.tm n),
      ha.exec hf hg hstack ha.seqno hstored⟩
  | rejected =>
    have hf : f.exec now .rejected = some (.nothing, f) := rfl
    have hg : g.exec now .rejected = some (.nothing, g) := rfl
    exact ⟨_, _, _, hf, hg, rfl, ha.exec hf hg hstack ha.seqno hcontent⟩

/-- An operation that is disturbed is seen to be: a close is accepted that would be refused, or
a first store finds an old node. -/
theorem seen_ne_of_disturbed (ha : Alike own all f g) (hno : ¬ Undisturbed own all now op) :
    ∃ r f' r' g', f.exec now op = some (r, f') ∧ g.exec now op = some (r', g') ∧
      (r ≠ r' ∨ stampOf op f' ≠ stampOf op g') := by
  cases op with
  | cls n =>
    obtain ⟨hall, hown⟩ := Classical.not_imp.mp hno
    rw [← ha.withReads] at hall
    rw [← ha.without, not_not] at hown
    -- The number has an entry only in the run with the inserted reads.
    exact ⟨.wrong n, _, .nothing, _, if_pos hown, if_neg hall, .inl nofun⟩
  | set n k1 k2 v =>
    obtain ⟨hnow, hread⟩ := Classical.not_imp.mp hno
    obtain ⟨hall, hown⟩ := Classical.not_imp.mp hread
    rw [← ha.withReads] at hall
    rw [← ha.without, not_not] at hown
    refine ⟨_, _, _, _, rfl, rfl, .inr ?_⟩
    -- Without the read the node is stamped, with it the node has the stamp 0.
    have hold : (g.gMapVal.get n).tm = 0 := by
      rw [ha.content.tm, tm_of_count_eq_zero hown]
    simp only [stampOf, tm_putAt, tm_stamp, hown, hall, and_self, and_false, if_true, if_false,
      hold]
    exact fun heq => hnow (Option.some.inj heq)
  | _ => exact absurd trivial hno

/-! ## §4 Observers -/

/-- From two states that are alike, the two runs show the same exactly if no call is disturbed. -/
theorem results_alike_iff {is : List (Item Num)} (ha : Alike own all f g) :
    (∃ seen, results (withoutReads is) f = some seen ∧ results is g = some seen) ↔
      ReadsHarmless own all is := by
  -- By induction on the calls; the two runs stay alike until a call is disturbed.
  induction is generalizing own all f g with
  | nil => simp [results, withoutReads, ReadsHarmless]
  | cons i is ih =>
    cases i with
    | read L => exact ih (alike_read ha L)
    | own now c =>
      simp only [results, withoutReads, ReadsHarmless, Call.run_eq_exec, Option.bind_eq_bind]
      by_cases hok : Undisturbed own all now c.op
      · obtain ⟨r, f', g', hf, hg, hstamp, ha'⟩ := alike_exec ha hok
        rw [← ih ha']
        simp only [hf, hg, hok, hstamp, true_and, Option.bind_some]
        -- The same is seen of this call, so the question is about the later ones.
        constructor
        · rintro ⟨seen, hwithout, hwith⟩
          obtain ⟨seen₁, h₁, heq₁⟩ := Option.bind_eq_some_iff.mp hwithout
          obtain ⟨seen₂, h₂, heq₂⟩ := Option.bind_eq_some_iff.mp hwith
          cases heq₁
          cases heq₂
          exact ⟨seen₁, h₁, h₂⟩
        · rintro ⟨seen, h₁, h₂⟩
          exact ⟨_, by rw [h₁]; rfl, by rw [h₂]; rfl⟩
      · -- This call is disturbed, and what is seen of it is different.
        obtain ⟨r, f', r', g', hf, hg, hne⟩ := seen_ne_of_disturbed ha hok
        simp only [hf, hg, hok, false_and, iff_false, Option.bind_some]
        rintro ⟨seen, hwithout, hwith⟩
        obtain ⟨seen₁, -, heq₁⟩ := Option.bind_eq_some_iff.mp hwithout
        obtain ⟨seen₂, -, heq₂⟩ := Option.bind_eq_some_iff.mp hwith
        cases heq₁
        obtain ⟨hout, htm⟩ : r' = r ∧ stampOf c.op g' = stampOf c.op f' := by
          simpa using (List.cons.inj (Option.some.inj heq₂)).1
        rcases hne with hne | hne
        · exact hne hout.symm
        · exact hne htm.symm

/-- From every state that is ever reached, and for every run with calls of `get_value` inserted
anywhere: the other calls show the same results, accept the same closes and leave the same stamps
as without the inserted ones, if and only if the run itself never closes a number, and never stores
into one at a nonzero time, that only inserted reads have touched since it was closed last. -/
theorem observer_iff {h : List (Event Client Num)} (hrun : Runs Step start h f)
    (is : List (Item Num)) : Observer f is ↔ ReadsHarmless (Touched h) (Touched h) is := by
  have hcount := count_ne_zero_iff_touched hrun
  have hself : Alike (Touched h) (Touched h) f f := by
    refine ⟨rfl, gStseq_ne_nil hrun, rfl, ⟨?_, ?_⟩, hcount, hcount, ?_⟩
    · intro n k1 k2
      rfl
    · intro n
      rfl
    · intro n hn
      exact hn
  exact results_alike_iff hself

/-- A number is stored into, read and closed. -/
theorem observer_stored :
    Observer start [.own 5 (.setValue [.number 1, .string [97], .string [98], .string [99]]),
      .read [.number 1, .string [97], .string [98]], .own 6 (.clsSeqno [.number (1 : Int)])] := by
  apply (observer_iff (h := ([] : List (Event Unit Int))) .start _).mpr
  have hset : (Call.setValue [.number (1 : Int), .string [97], .string [98], .string [99]]).op =
      .set 1 [97] [98] [99] := by rfl
  have hread : (Call.getValue [.number (1 : Int), .string [97], .string [98]]).op =
      .get 1 [97] [98] := by rfl
  have hcls : (Call.clsSeqno [.number (1 : Int)]).op = .cls 1 := by rfl
  simp [ReadsHarmless, hset, hread, hcls, Undisturbed, touch, Touched]

/-- A number that was only read is taken back by `cls_seqno`, which refuses it otherwise. -/
theorem get_value_seen :
    ¬ ∀ (h : List (Event Unit Int)) (f : Frame), Runs Step start h f →
      ∀ is : List (Item Int), Observer f is := by
  intro hall
  obtain ⟨seen, hwithout, hwith⟩ := hall [] start .start
    [.read [.number 5, .string [97], .string [98]], .own 0 (.clsSeqno [.number 5])]
  have hrefused : some seen = some [⟨.wrong 5, none⟩] := hwithout.symm
  have haccepted : some seen = some [⟨.nothing, none⟩] := hwith.symm
  rw [hrefused] at haccepted
  exact absurd haccepted (by decide)

end MyLua.MainFrame
