import MyLua.Foundation.LuaStack
import MyLua.Foundation.StdMap
import MyLua.Foundation.Runs

/-!
# The Request Store of the Main Frame (`mainframe/test.cpp`)

The four functions every Lua state is given: `get_seqno` and `cls_seqno` hand out and take
back sequence numbers, `get_value` and `set_value` read and write the map of a number. All
four work on globals under `seqno_lock`, so a call is one step on those globals.

## Main results

- `Call.run_eq_exec`: a call does what the operation its arguments decode to does.
- `exec_cases`: the only things an operation can do, with the state it leaves.
- `call_isSome`: no call of a run pops an empty stack.
-/

namespace MyLua.MainFrame

open MyLua.Foundation

/-! ## §1 Globals -/

/-- `Node`: what is stored under one sequence number. -/
structure Node where
  tm : Int
  content : StdMap Bytes (StdMap Bytes Bytes)

/-- `operator[]` of a map value-initialises the node it inserts. -/
instance : Inhabited Node := ⟨{ tm := 0, content := default }⟩

/-- The globals, and the static counter of `get_seqno`. The top of `g_stseq` comes first. -/
structure Frame where
  gStseq : List Int
  gMapVal : StdMap Int Node
  seqno : Int

/-- The globals before `init`. -/
def Frame.initial : Frame where
  gStseq := []
  gMapVal := StdMap.empty
  seqno := 1

/-- `init`; its environment variables are not part of the model. -/
def init (f : Frame) : Frame := { f with gStseq := 1 :: f.gStseq }

/-- What a call shows: its result, or the text `wrong...seqno=%d` it prints. -/
inductive Outcome where
  | nothing
  | number (n : Int)
  | text (s : Bytes)
  | wrong (seqno : Int)
  deriving DecidableEq, Repr

/-! ## §2 The registered functions -/

variable {Num : Type} [LuaNumber Num]

/-- `get_data(L, index, int&)`; `none` is the return value -1. -/
def getDataInt (v : LuaValue Num) : Option Int := (luaToNumber v).map LuaNumber.toInt

/-- `get_data(L, index, std::string&)`: the assignment from a `char *` stops at a NUL. -/
def getDataString (v : LuaValue Num) : Option Bytes := (luaToString v).map cut

/-- `put_data(L, std::string&)` pushes a C string. -/
def putDataString (s : Bytes) : Outcome := .text (cut s)

/-- `get_seqno`. `none` is `top()` of an empty stack. -/
def getSeqno (L : List (LuaValue Num)) (f : Frame) : Option (Outcome × Frame) :=
  let str := (getDataString (luaArg L 1)).getD []
  if str = ascii "stack" then
    match f.gStseq with
    -- The code relies on it: "must have one element".
    | [] => none
    | currentSeqno :: rest =>
      -- A stack that would become empty keeps the next fresh number.
      some (.number currentSeqno,
        { f with gStseq := if rest.length = 0 then [wrapInt (currentSeqno + 1)] else rest })
  else
    some (.number f.seqno, { f with seqno := wrapInt (f.seqno + 1) })

/-- `cls_seqno`. -/
def clsSeqno (L : List (LuaValue Num)) (f : Frame) : Outcome × Frame :=
  let seqno := (getDataInt (luaArg L 1)).getD (-1)
  if f.gMapVal.count seqno = 0 then
    -- Without an entry in `g_mapVal` the number is only printed.
    (.wrong seqno, f)
  else
    (.nothing, { f with gMapVal := f.gMapVal.erase seqno, gStseq := seqno :: f.gStseq })

/-- The string `m[n].content[k1][k2]` refers to. -/
def valueAt (m : StdMap Int Node) (n : Int) (k1 k2 : Bytes) : Bytes :=
  ((m.get n).content.get k1).get k2

/-- `m[n].content[k1][k2] = v`: the levels that are missing are created. -/
def putAt (m : StdMap Int Node) (n : Int) (k1 k2 v : Bytes) : StdMap Int Node :=
  let node := m.get n
  m.set n { node with content := node.content.set k1 ((node.content.get k1).set k2 v) }

/-- `get_value`: reading through `operator[]` creates what is missing, as an empty string. -/
def getValue (L : List (LuaValue Num)) (f : Frame) : Outcome × Frame :=
  match getDataInt (luaArg L 1) with
  | none => (.nothing, f)
  | some index =>
    if index ≤ 0 then (.nothing, f)
    else
      match getDataString (luaArg L 2), getDataString (luaArg L 3) with
      | some tmp1, some tmp2 =>
        -- The read goes through `operator[]` on all three levels, so it writes back what it found.
        let value := valueAt f.gMapVal index tmp1 tmp2
        (putDataString value, { f with gMapVal := putAt f.gMapVal index tmp1 tmp2 value })
      | _, _ => (.nothing, f)

/-- `set_value` at time `now`. -/
def setValue (now : Int) (L : List (LuaValue Num)) (f : Frame) : Outcome × Frame :=
  match getDataInt (luaArg L 1) with
  | none => (.nothing, f)
  | some index =>
    if index ≤ 0 then (.nothing, f)
    else
      match getDataString (luaArg L 2), getDataString (luaArg L 3), getDataString (luaArg L 4) with
      | some tmp1, some tmp2, some tmp3 =>
        -- A new entry is stamped before the value is stored.
        let m := if f.gMapVal.count index = 0
          then f.gMapVal.set index { f.gMapVal.get index with tm := now } else f.gMapVal
        (.nothing, { f with gMapVal := putAt m index tmp1 tmp2 tmp3 })
      | _, _, _ => (.nothing, f)

/-- A call from Lua, with its arguments. -/
inductive Call (Num : Type) where
  | getSeqno (L : List (LuaValue Num))
  | clsSeqno (L : List (LuaValue Num))
  | getValue (L : List (LuaValue Num))
  | setValue (L : List (LuaValue Num))

/-- A call at time `now`. -/
def Call.run (now : Int) : Call Num → Frame → Option (Outcome × Frame)
  | .getSeqno L, f => MainFrame.getSeqno L f
  | .clsSeqno L, f => some (MainFrame.clsSeqno L f)
  | .getValue L, f => some (MainFrame.getValue L f)
  | .setValue L, f => some (MainFrame.setValue now L f)

/-! ## §3 Operations

The arguments of a call only decide which operation it performs.
-/

/-- What a call asks for. -/
inductive Op where
  | stackSeqno
  | counterSeqno
  | cls (n : Int)
  | get (n : Int) (k1 k2 : Bytes)
  | set (n : Int) (k1 k2 v : Bytes)
  | rejected

/-- The operation of `get_value` and `set_value` with an index: it has to be positive. -/
def indexed (index : Option Int) (op : Int → Option Op) : Op :=
  match index with
  | none => .rejected
  | some n => if n ≤ 0 then .rejected else (op n).getD .rejected

/-- The operation a call decodes to. -/
def Call.op : Call Num → Op
  | .getSeqno L =>
    if (getDataString (luaArg L 1)).getD [] = ascii "stack" then .stackSeqno else .counterSeqno
  | .clsSeqno L => .cls ((getDataInt (luaArg L 1)).getD (-1))
  | .getValue L => indexed (getDataInt (luaArg L 1)) fun n => do
      return .get n (← getDataString (luaArg L 2)) (← getDataString (luaArg L 3))
  | .setValue L => indexed (getDataInt (luaArg L 1)) fun n => do
      return .set n (← getDataString (luaArg L 2)) (← getDataString (luaArg L 3))
        (← getDataString (luaArg L 4))

/-- `g_mapVal[n].tm = now` for a number without an entry. -/
def stamp (now : Int) (m : StdMap Int Node) (n : Int) : StdMap Int Node :=
  if m.count n = 0 then m.set n { m.get n with tm := now } else m

/-- An operation on the globals. -/
def Frame.exec (now : Int) (f : Frame) : Op → Option (Outcome × Frame)
  | .stackSeqno =>
    match f.gStseq with
    | [] => none
    | n :: rest =>
      some (.number n, { f with gStseq := if rest.length = 0 then [wrapInt (n + 1)] else rest })
  | .counterSeqno => some (.number f.seqno, { f with seqno := wrapInt (f.seqno + 1) })
  | .cls n =>
    if f.gMapVal.count n = 0 then some (.wrong n, f)
    else some (.nothing, { f with gMapVal := f.gMapVal.erase n, gStseq := n :: f.gStseq })
  | .get n k1 k2 =>
    let value := valueAt f.gMapVal n k1 k2
    some (.text (cut value), { f with gMapVal := putAt f.gMapVal n k1 k2 value })
  | .set n k1 k2 v =>
    some (.nothing, { f with gMapVal := putAt (stamp now f.gMapVal n) n k1 k2 v })
  | .rejected => some (.nothing, f)

/-- A call does what its operation does. -/
theorem Call.run_eq_exec (now : Int) (c : Call Num) (f : Frame) :
    c.run now f = f.exec now c.op := by
  cases c with
  | getSeqno L =>
    simp only [Call.run, MainFrame.getSeqno, Call.op]
    split <;> rfl
  | clsSeqno L =>
    simp only [Call.run, MainFrame.clsSeqno, Call.op, Frame.exec]
    split <;> rfl
  | getValue L =>
    -- The index is decoded first, then the two keys; a failure of any of them refuses the call.
    simp only [Call.run, MainFrame.getValue, Call.op, indexed]
    cases getDataInt (luaArg L 1) with
    | none => rfl
    | some n =>
      by_cases hn : n ≤ 0
      · simp only [if_pos hn, Frame.exec]
      · simp only [if_neg hn]
        cases getDataString (luaArg L 2) <;> cases getDataString (luaArg L 3) <;> rfl
  | setValue L =>
    -- As `get_value`, with the value as a fourth argument.
    simp only [Call.run, MainFrame.setValue, Call.op, indexed]
    cases getDataInt (luaArg L 1) with
    | none => rfl
    | some n =>
      by_cases hn : n ≤ 0
      · simp only [if_pos hn, Frame.exec]
      · simp only [if_neg hn]
        cases getDataString (luaArg L 2) <;> cases getDataString (luaArg L 3) <;>
          cases getDataString (luaArg L 4) <;> rfl

/-- The operation of `set_value`, decoded. -/
theorem Call.op_eq_set {c : Call Num} {n : Int} {k1 k2 v : Bytes} (h : c.op = .set n k1 k2 v) :
    ∃ L, c = .setValue L ∧ getDataInt (luaArg L 1) = some n ∧ getDataString (luaArg L 2) = some k1 ∧
      getDataString (luaArg L 3) = some k2 ∧ getDataString (luaArg L 4) = some v := by
  cases c with
  | getSeqno L =>
    -- Only `set_value` decodes to a store.
    simp only [Call.op] at h
    split at h <;> cases h
  | clsSeqno L => cases h
  | getValue L =>
    simp only [Call.op, indexed] at h
    cases hn : getDataInt (luaArg L 1) with
    | none => simp [hn] at h
    | some m =>
      simp only [hn] at h
      split at h
      · cases h
      · cases h1 : getDataString (luaArg L 2) <;> cases h2 : getDataString (luaArg L 3) <;>
          simp [h1, h2] at h
  | setValue L =>
    simp only [Call.op, indexed] at h
    cases hn : getDataInt (luaArg L 1) with
    | none => simp [hn] at h
    | some m =>
      simp only [hn] at h
      split at h
      · cases h
      · cases h1 : getDataString (luaArg L 2) <;> cases h2 : getDataString (luaArg L 3) <;>
          cases h3 : getDataString (luaArg L 4) <;> simp [h1, h2, h3] at h
        -- All four arguments were accepted.
        obtain ⟨rfl, rfl, rfl, rfl⟩ := h
        exact ⟨L, rfl, hn, h1, h2, h3⟩

/-- What `get_data` reads has no NUL. -/
theorem cut_getDataString {x : LuaValue Num} {s : Bytes} (h : getDataString x = some s) :
    cut s = s := by
  obtain ⟨t, _, rfl⟩ := Option.map_eq_some_iff.mp h
  exact cut_cut t

/-! ## §4 The map of values -/

theorem valueAt_putAt (m : StdMap Int Node) (n n' : Int) (k1 k1' k2 k2' v : Bytes) :
    valueAt (putAt m n k1 k2 v) n' k1' k2' =
      if n' = n ∧ k1' = k1 ∧ k2' = k2 then v else valueAt m n' k1' k2' := by
  simp only [valueAt, putAt, StdMap.get_set]
  -- Level by level: the number, the first key, and then the second key.
  by_cases hn : n' = n
  · subst hn
    simp only [if_true, StdMap.get_set, true_and]
    by_cases h1 : k1' = k1
    · subst h1
      simp only [if_true, StdMap.get_set, true_and]
    · simp only [h1, false_and, if_false]
  · simp only [hn, false_and, if_false]

theorem count_putAt (m : StdMap Int Node) (n n' : Int) (k1 k2 v : Bytes) :
    (putAt m n k1 k2 v).count n' = if n' = n then 1 else m.count n' := by
  rw [putAt, StdMap.count_set]

theorem valueAt_stamp (now : Int) (m : StdMap Int Node) (n n' : Int) (k1 k2 : Bytes) :
    valueAt (stamp now m n) n' k1 k2 = valueAt m n' k1 k2 := by
  unfold stamp
  split
  · -- The node is new; stamping it leaves its content empty.
    simp only [valueAt, StdMap.get_set]
    by_cases hn : n' = n
    · subst hn
      simp only [if_true]
    · simp only [if_neg hn]
  · rfl

theorem count_stamp_of_ne (now : Int) (m : StdMap Int Node) {n n' : Int} (h : n' ≠ n) :
    (stamp now m n).count n' = m.count n' := by
  unfold stamp
  split
  · rw [StdMap.count_set, if_neg h]
  · rfl

theorem valueAt_erase (m : StdMap Int Node) (n n' : Int) (k1 k2 : Bytes) :
    valueAt (m.erase n) n' k1 k2 = if n' = n then [] else valueAt m n' k1 k2 := by
  simp only [valueAt, StdMap.get_erase]
  split <;> rfl

/-- Nothing is stored under a number without an entry. -/
theorem valueAt_of_count_eq_zero {m : StdMap Int Node} {n : Int} (h : m.count n = 0)
    (k1 k2 : Bytes) : valueAt m n k1 k2 = [] := by
  have hget : m.get n = default := by rw [StdMap.get, StdMap.count_eq_zero.mp h]; rfl
  rw [valueAt, hget]
  rfl

/-! ## §5 Steps -/

/-- The effects of the operations: what is shown, and the globals afterwards. -/
inductive Effect (now : Int) (f : Frame) : Op → Outcome → Frame → Prop where
  | stack {n : Int} {rest : List Int} (top : f.gStseq = n :: rest) :
      Effect now f .stackSeqno (.number n)
        { f with gStseq := if rest.length = 0 then [wrapInt (n + 1)] else rest }
  | counter :
      Effect now f .counterSeqno (.number f.seqno) { f with seqno := wrapInt (f.seqno + 1) }
  | closed {n : Int} (present : f.gMapVal.count n ≠ 0) :
      Effect now f (.cls n) .nothing
        { f with gMapVal := f.gMapVal.erase n, gStseq := n :: f.gStseq }
  | refused {n : Int} (absent : f.gMapVal.count n = 0) : Effect now f (.cls n) (.wrong n) f
  | get (n : Int) (k1 k2 : Bytes) :
      Effect now f (.get n k1 k2) (.text (cut (valueAt f.gMapVal n k1 k2)))
        { f with gMapVal := putAt f.gMapVal n k1 k2 (valueAt f.gMapVal n k1 k2) }
  | set (n : Int) (k1 k2 v : Bytes) :
      Effect now f (.set n k1 k2 v) .nothing
        { f with gMapVal := putAt (stamp now f.gMapVal n) n k1 k2 v }
  | rejected : Effect now f .rejected .nothing f

/-- An operation has one of the effects. -/
theorem exec_cases {now : Int} {f f' : Frame} {op : Op} {r : Outcome}
    (h : f.exec now op = some (r, f')) : Effect now f op r f' := by
  cases op with
  | stackSeqno =>
    simp only [Frame.exec] at h
    split at h
    · cases h
    · cases h
      exact .stack ‹_›
  | counterSeqno => cases h; exact .counter
  | cls n =>
    simp only [Frame.exec] at h
    split at h
    · cases h; exact .refused ‹_›
    · cases h; exact .closed ‹_›
  | get n k1 k2 => cases h; exact .get n k1 k2
  | set n k1 k2 v => cases h; exact .set n k1 k2 v
  | rejected => cases h; exact .rejected

/-- A call some client made, with what it showed. -/
structure Event (Client Num : Type) where
  client : Client
  call : Call Num
  outcome : Outcome

variable {Client : Type}

/-- The operation of the event's call. -/
def Event.op (e : Event Client Num) : Op := e.call.op

/-- One call under `seqno_lock`, at some time. -/
def Step (f : Frame) (e : Event Client Num) (f' : Frame) : Prop :=
  ∃ now, e.call.run now f = some (e.outcome, f')

/-- A step has the effect of its call's operation. -/
theorem Step.effect {f f' : Frame} {e : Event Client Num} (h : Step f e f') :
    ∃ now op r, e.op = op ∧ e.outcome = r ∧ Effect now f op r f' := by
  obtain ⟨now, hrun⟩ := h
  rw [Call.run_eq_exec] at hrun
  exact ⟨now, e.op, e.outcome, rfl, rfl, exec_cases hrun⟩

/-- A step whose operation is known has one of its effects. -/
theorem Step.effect_of_op {f f' : Frame} {e : Event Client Num} {op : Op} (h : Step f e f')
    (hop : e.op = op) : ∃ now r, e.outcome = r ∧ Effect now f op r f' := by
  obtain ⟨now, op', r, hop', hr, heff⟩ := h.effect
  obtain rfl : op' = op := hop'.symm.trans hop
  exact ⟨now, r, hr, heff⟩

/-- The globals after `init`. -/
def start : Frame := init Frame.initial

/-- No operation empties the stack. -/
theorem Effect.gStseq_ne_nil {now : Int} {f f' : Frame} {op : Op} {r : Outcome}
    (heff : Effect now f op r f') (hne : f.gStseq ≠ []) : f'.gStseq ≠ [] := by
  cases heff with
  | stack top =>
    -- The last element is replaced, any other one leaves at least one below it.
    dsimp only
    split
    · simp
    · exact List.ne_nil_of_length_pos (by omega)
  | closed => simp
  | _ => exact hne

/-- The stack always has one element. -/
theorem gStseq_ne_nil {h : List (Event Client Num)} {f : Frame} (hrun : Runs Step start h f) :
    f.gStseq ≠ [] := by
  induction hrun with
  | start => simp [start, init]
  | next hr hs ih =>
    obtain ⟨now, op, r, -, -, heff⟩ := hs.effect
    exact heff.gStseq_ne_nil ih

/-- Every call of a run is defined: `top()` always finds an element. -/
theorem call_isSome {h : List (Event Client Num)} {f : Frame} (hrun : Runs Step start h f)
    (now : Int) (c : Call Num) : (c.run now f).isSome := by
  rw [Call.run_eq_exec]
  cases hop : c.op with
  | stackSeqno =>
    cases hst : f.gStseq with
    | nil => exact absurd hst (gStseq_ne_nil hrun)
    | cons n rest => simp [Frame.exec, hst]
  | cls n =>
    simp only [Frame.exec]
    split <;> rfl
  | _ => rfl

/-- The run in which the given calls are made, the newest first, at time 0. -/
def replay : List (Client × Call Num) → List (Event Client Num) × Frame
  | [] => ([], start)
  | (client, call) :: calls =>
    let (h, f) := replay calls
    match call.run 0 f with
    | some (outcome, f') => ({ client, call, outcome } :: h, f')
    | none => (h, f)

theorem runs_replay (calls : List (Client × Call Num)) :
    Runs Step start (replay calls).1 (replay calls).2 := by
  induction calls with
  | nil => exact .start
  | cons c calls ih =>
    obtain ⟨client, call⟩ := c
    rw [replay]
    cases hrun : call.run 0 (replay calls).2 with
    | none => simpa only [hrun] using ih
    | some p =>
      simp only [hrun]
      exact ih.next ⟨0, hrun⟩

end MyLua.MainFrame
