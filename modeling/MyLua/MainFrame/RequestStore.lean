import MyLua.MainFrame.Store

/-!
# The Request Store as a Store (`get_value`, `set_value`, `cls_seqno`)

`g_mapVal` is a map of maps of maps whose levels are created by reads as well as writes.
Seen through `get_value` it is one map from a number and two keys to a string, and that
map is determined by the calls made so far.

## Main results

- `lastStored_eq_some_iff`: the abstract store, as a statement about the history.
- `valueAt_eq_lastStored`: the concrete store simulates the abstract one.
- `getValue_reads_last`: what `get_value` returns after any run.
-/

namespace MyLua.MainFrame

open MyLua.Foundation

variable {Num Client : Type} [LuaNumber Num]

/-! ## §1 The abstract store -/

/-- The value stored last under a number and two keys, unless the number was closed since. -/
def lastStored (n : Int) (k1 k2 : Bytes) : List (Event Client Num) → Option Bytes
  | [] => none
  | e :: h =>
    match e.op with
    | .set n' k1' k2' v => if n = n' ∧ k1 = k1' ∧ k2 = k2' then some v else lastStored n k1 k2 h
    | .cls n' => if n = n' then none else lastStored n k1 k2 h
    | _ => lastStored n k1 k2 h

/-- The event neither stores under the number and the keys nor closes the number. -/
def Event.Passes (n : Int) (k1 k2 : Bytes) (e : Event Client Num) : Prop :=
  e.op ≠ .cls n ∧ ∀ v, e.op ≠ .set n k1 k2 v

/-- `v` is the value of the most recent store under the number and the keys, and no close of
the number came after it. -/
def StoredLast (h : List (Event Client Num)) (n : Int) (k1 k2 v : Bytes) : Prop :=
  ∃ newer e older, h = newer ++ e :: older ∧ e.op = .set n k1 k2 v ∧
    ∀ e' ∈ newer, e'.Passes n k1 k2

/-- Events that pass do not change the abstract store. -/
theorem lastStored_cons_of_passes {n : Int} {k1 k2 : Bytes} {e : Event Client Num}
    (he : e.Passes n k1 k2) (h : List (Event Client Num)) :
    lastStored n k1 k2 (e :: h) = lastStored n k1 k2 h := by
  obtain ⟨hcls, hset⟩ := he
  rw [lastStored]
  cases hop : e.op with
  | cls n' =>
    have hn : n ≠ n' := fun heq => hcls (heq ▸ hop)
    simp only [if_neg hn]
  | set n' k1' k2' v =>
    have hkey : ¬ (n = n' ∧ k1 = k1' ∧ k2 = k2') := by
      rintro ⟨rfl, rfl, rfl⟩
      exact hset v hop
    simp only [if_neg hkey]
  | _ => rfl

theorem lastStored_append_of_passes {n : Int} {k1 k2 : Bytes} {newer : List (Event Client Num)}
    (hpass : ∀ e ∈ newer, e.Passes n k1 k2) (h : List (Event Client Num)) :
    lastStored n k1 k2 (newer ++ h) = lastStored n k1 k2 h := by
  induction newer with
  | nil => rfl
  | cons e newer ih =>
    rw [List.cons_append, lastStored_cons_of_passes (hpass e List.mem_cons_self)]
    exact ih fun e' he' => hpass e' (List.mem_cons_of_mem e he')

/-- An event that does not pass decides the abstract store. -/
theorem lastStored_cons_of_not_passes {n : Int} {k1 k2 : Bytes} {e : Event Client Num}
    (he : ¬ e.Passes n k1 k2) (h : List (Event Client Num)) (v : Bytes) :
    lastStored n k1 k2 (e :: h) = some v ↔ e.op = .set n k1 k2 v := by
  rw [lastStored]
  by_cases hcls : e.op = .cls n
  · simp [hcls]
  · obtain ⟨w, hw⟩ : ∃ w, e.op = .set n k1 k2 w := by
      by_contra hnone
      exact he ⟨hcls, fun w hw => hnone ⟨w, hw⟩⟩
    simp [hw]

/-- The abstract store says what the most recent store was. -/
theorem lastStored_eq_some_iff {n : Int} {k1 k2 v : Bytes} {h : List (Event Client Num)} :
    lastStored n k1 k2 h = some v ↔ StoredLast h n k1 k2 v := by
  constructor
  · intro hlast
    -- Go back through the history to the first event that does not pass.
    induction h with
    | nil => cases hlast
    | cons e h ih =>
      by_cases he : e.Passes n k1 k2
      · rw [lastStored_cons_of_passes he] at hlast
        obtain ⟨newer, e', older, rfl, hop, hpass⟩ := ih hlast
        refine ⟨e :: newer, e', older, rfl, hop, ?_⟩
        simp only [List.mem_cons, forall_eq_or_imp]
        exact ⟨he, hpass⟩
      · -- The newest event decides, and nothing came after it.
        have hop := (lastStored_cons_of_not_passes he h v).mp hlast
        exact ⟨[], e, h, rfl, hop, by simp⟩
  · rintro ⟨newer, e, older, rfl, hop, hpass⟩
    rw [lastStored_append_of_passes hpass, lastStored]
    simp [hop]

/-! ## §2 The simulation -/

/-- The concrete map holds what the abstract one says, an empty string standing for nothing. -/
def Simulates (h : List (Event Client Num)) (f : Frame) : Prop :=
  ∀ n k1 k2, valueAt f.gMapVal n k1 k2 = (lastStored n k1 k2 h).getD []

theorem simulates_step {h : List (Event Client Num)} {f f' : Frame} {e : Event Client Num}
    (hsim : Simulates h f) (hs : Step f e f') : Simulates (e :: h) f' := by
  intro n k1 k2
  have hold := hsim n k1 k2
  obtain ⟨now, op, r, hop, -, heff⟩ := hs.effect
  cases heff with
  | closed present =>
    -- Closing removes all three levels of the number, and only those.
    simp only [lastStored, hop, valueAt_erase]
    split
    · rfl
    · exact hold
  | refused absent =>
    -- A refused close forgets the number in the abstract store; it had no entry to forget.
    simp only [lastStored, hop]
    split
    · rename_i hn
      subst hn
      exact valueAt_of_count_eq_zero absent k1 k2
    · exact hold
  | get n' k1' k2' =>
    -- The value a read inserts is the one the store already stands for.
    simp only [lastStored, hop, valueAt_putAt]
    split
    · rename_i hkey
      obtain ⟨rfl, rfl, rfl⟩ := hkey
      exact hold
    · exact hold
  | set n' k1' k2' v =>
    -- A store changes the value of its own keys only, whatever levels it creates.
    simp only [lastStored, hop, valueAt_putAt, valueAt_stamp]
    split
    · rfl
    · exact hold
  | stack top => simpa only [lastStored, hop] using hold
  | counter => simpa only [lastStored, hop] using hold
  | rejected => simpa only [lastStored, hop] using hold

/-- After every run the concrete map simulates the abstract store. -/
theorem valueAt_eq_lastStored {h : List (Event Client Num)} {f : Frame}
    (hrun : Runs Step start h f) : Simulates h f :=
  hrun.invariant (fun _ _ _ => rfl) simulates_step

/-- What the abstract store holds was read from a Lua string and has no NUL. -/
theorem cut_lastStored (n : Int) (k1 k2 : Bytes) (h : List (Event Client Num)) :
    cut ((lastStored n k1 k2 h).getD []) = (lastStored n k1 k2 h).getD [] := by
  cases hlast : lastStored n k1 k2 h with
  | none => rfl
  | some v =>
    obtain ⟨newer, e, older, -, hop, -⟩ := lastStored_eq_some_iff.mp hlast
    obtain ⟨L, -, -, -, -, hv⟩ := Call.op_eq_set hop
    exact cut_getDataString hv

/-! ## §3 Reading -/

/-- The result of `get_value` with accepted arguments. -/
theorem getValue_fst {L : List (LuaValue Num)} {n : Int} {a b : Bytes} (f : Frame)
    (hn : getDataInt (luaArg L 1) = some n) (hpos : 0 < n)
    (ha : luaToString (luaArg L 2) = some a) (hb : luaToString (luaArg L 3) = some b) :
    (getValue L f).1 = .text (cut (valueAt f.gMapVal n (cut a) (cut b))) := by
  have hpos' : ¬ n ≤ 0 := by omega
  have ha' : getDataString (luaArg L 2) = some (cut a) := by rw [getDataString, ha]; rfl
  have hb' : getDataString (luaArg L 3) = some (cut b) := by rw [getDataString, hb]; rfl
  simp only [getValue, hn, if_neg hpos', ha', hb', putDataString]

/-- After any run, `get_value` on a positive index returns the value of the most recent
`set_value` on that index and, up to the first NUL, those keys, unless `cls_seqno` closed the
index since; without one it returns the empty string. Calls that neither store there nor close
the index do not change the answer. -/
theorem getValue_reads_last {h : List (Event Client Num)} {f : Frame} (hrun : Runs Step start h f)
    {L : List (LuaValue Num)} {n : Int} {a b : Bytes}
    (hn : getDataInt (luaArg L 1) = some n) (hpos : 0 < n)
    (ha : luaToString (luaArg L 2) = some a) (hb : luaToString (luaArg L 3) = some b) :
    ∃ r, (getValue L f).1 = .text r ∧
      (∀ v, StoredLast h n (cut a) (cut b) v → r = v) ∧
      ((∀ v, ¬ StoredLast h n (cut a) (cut b) v) → r = []) ∧
      ∀ (later : List (Event Client Num)) f', Runs Step f later f' →
        (∀ e ∈ later, e.Passes n (cut a) (cut b)) → (getValue L f').1 = .text r := by
  -- The same formula holds after every run, so also after the run that goes on from this one.
  have hread : ∀ {h : List (Event Client Num)} {f : Frame}, Runs Step start h f →
      (getValue L f).1 = .text ((lastStored n (cut a) (cut b) h).getD []) := by
    intro h f hrun
    rw [getValue_fst f hn hpos ha hb, valueAt_eq_lastStored hrun, cut_lastStored]
  refine ⟨(lastStored n (cut a) (cut b) h).getD [], hread hrun, ?_, ?_, ?_⟩
  · intro v hv
    rw [lastStored_eq_some_iff.mpr hv]
    rfl
  · intro hnone
    cases hlast : lastStored n (cut a) (cut b) h with
    | none => rfl
    | some v => exact absurd (lastStored_eq_some_iff.mp hlast) (hnone v)
  · intro later f' hlater hpass
    rw [hread (hrun.trans hlater), lastStored_append_of_passes hpass]

/-- A key is read before anything is stored, and then stored twice. -/
def storedTwice : List (Unit × Call Int) :=
  [((), .setValue [.number 1, .string [97], .string [98], .string [100]]),
    ((), .setValue [.number 1, .string [97], .string [98], .string [99]]),
    ((), .getValue [.number 1, .string [97], .string [98]])]

/-- The second value stored is the one read, also when an argument goes on behind a NUL. -/
theorem getValue_reads_second_store :
    (getValue [.number (1 : Int), .string [97, 0, 7], .string [98]] (replay storedTwice).2).1 =
      .text [100] := by
  have hlast : StoredLast (replay storedTwice).1 1 [97] [98] [100] :=
    ⟨[], _, _, rfl, rfl, by simp⟩
  obtain ⟨r, hread, hvalue, -⟩ := getValue_reads_last (runs_replay storedTwice)
    (L := [.number 1, .string [97, 0, 7], .string [98]]) (n := 1) (a := [97, 0, 7]) (b := [98])
    rfl (by decide) rfl rfl
  rw [hread, hvalue [100] hlast]

end MyLua.MainFrame
