import MyLua.Foundation.Interactive
import MyLua.Foundation.StdMap
import MyLua.Service.Modules

/-!
# Loading Modules (`ll_require`)

`require` runs the code of a module the first time and remembers in `package.loaded` what came out
of it. While the code runs, a sentinel stands there, so a module that is required again from its own
code raises an error. The code may require other modules, and may enter tables into
`package.loaded`, as `module` and `luaL_register` do.

A module whose code returns `false` counts as not loaded, and is run again the next time.

## Main results

- `require_kept`: what is in `package.loaded` stays there.
- `require_total`: `require` ends if finitely many names lead to a module.
- `modules_once`: over any number of calls, the code of a module runs once at most.
-/

namespace MyLua.Service

open MyLua.Foundation

/-! ## §1 `package.loaded` -/

/-- A value in `package.loaded`; nil is none. -/
inductive Value where
  | boolean (b : Bool)
  | sentinel
  | object (n : Nat)
  deriving DecidableEq

/-- `lua_toboolean` -/
def Value.toboolean : Value → Bool
  | .boolean b => b
  | _ => true

/-- What the code of a module does: it requires a module, whose errors it may catch, or it enters a
table for a name. -/
inductive ModuleOp where
  | require (name : Bytes)
  | enter (name : Bytes) (object : Nat)

/-- The errors of a call of `require`. -/
inductive Failure where
  | loop
  | loader (e : RequireError)
  | chunk
  deriving DecidableEq

/-- The result of an operation. -/
abbrev ModuleOp.Res : ModuleOp → Type
  | .require _ => Except Failure (Option Value)
  | .enter _ _ => Unit

/-- The code of a module; it ends with an error, or returns a value or nil. -/
abbrev Chunk := Prog ModuleOp ModuleOp.Res (Except Failure (Option Value))

/-- `package.loaded`, and the modules whose code was run. -/
structure Package where
  loaded : StdMap Bytes Value
  started : List Bytes

def Package.setfield (s : Package) (name : Bytes) (v : Value) : Package :=
  { s with loaded := s.loaded.set name v }

/-- The code of a module starts; the sentinel stands for it. -/
def Package.starting (s : Package) (name : Bytes) : Package :=
  { s.setfield name .sentinel with started := s.started ++ [name] }

/-- The module is there, or its code is running. -/
def Package.present (s : Package) (name : Bytes) : Bool :=
  (s.loaded.find? name).any Value.toboolean

/-! ## §2 `ll_require` -/

/-- A call of the code of a module. -/
def runChunk (require : Bytes → Package → Option (Except Failure (Option Value) × Package)) :
    Chunk → Package → Option (Except Failure (Option Value) × Package)
  | .ret r, s => some (r, s)
  | .call (.require name) k, s => do
    let (r, s) ← require name s
    runChunk require (k r) s
  | .call (.enter name n) k, s => runChunk require (k ()) (s.setfield name (.object n))

/-- A value other than nil that the code returned is entered. -/
def Package.returned (s : Package) (name : Bytes) : Option Value → Package
  | some v => s.setfield name v
  | none => s

/-- The end of `ll_require`, with what the code returned; `true` stands for no value. -/
def finish (name : Bytes) (w : Option Value) (s : Package) : Option Value × Package :=
  let s := s.returned name w
  -- The code entered nothing, so the module is `true`.
  if s.loaded.find? name = some .sentinel then
    (some (.boolean true), s.setfield name (.boolean true))
  else (s.loaded.find? name, s)

/-- `ll_require`; `none` is a recursion that is deeper than the first argument. -/
def require (find : Bytes → Except RequireError Chunk) :
    Nat → Bytes → Package → Option (Except Failure (Option Value) × Package)
  | 0, _, _ => none
  | turns + 1, name, s =>
    -- The sentinel stands for a module whose code is running, or failed.
    if s.loaded.find? name = some .sentinel then some (.error .loop, s)
    else if s.present name then some (.ok (s.loaded.find? name), s)
    else match find name with
      | .error e => some (.error (.loader e), s)
      | .ok chunk => do
        let (r, s) ← runChunk (require find turns) chunk (s.starting name)
        match r with
        | .error e => return (.error e, s)
        | .ok w =>
          let (v, s) := finish name w s
          return (.ok v, s)

/-- Calls of `require`, one after the other; their errors are caught. -/
def requires (find : Bytes → Except RequireError Chunk) (turns : Nat) :
    List Bytes → Package → Option Package
  | [], s => some s
  | name :: names, s => do
    let (_, s) ← require find turns name s
    requires find turns names s

/-- The code never returns `false`. -/
def NeverFalse : Chunk → Prop
  | .ret r => r ≠ .ok (some (.boolean false))
  | .call _ k => ∀ r, NeverFalse (k r)

/-! ## §3 What stays in `package.loaded` -/

variable {find : Bytes → Except RequireError Chunk} {s s' : Package} {name n : Bytes} {v : Value}
  {r : Except Failure (Option Value)} {turns : Nat}
  {req : Bytes → Package → Option (Except Failure (Option Value) × Package)}

/-- What is present stays, and modules are started once only. -/
structure Kept (s s' : Package) : Prop where
  present : ∀ n, s.present n = true → s'.present n = true
  once : s.started.Nodup → (∀ n ∈ s.started, s.present n = true) →
    s'.started.Nodup ∧ ∀ n ∈ s'.started, s'.present n = true

theorem Kept.refl (s : Package) : Kept s s := ⟨fun _ h => h, fun h h' => ⟨h, h'⟩⟩

theorem Kept.trans {s₁ s₂ s₃ : Package} (h : Kept s₁ s₂) (h' : Kept s₂ s₃) : Kept s₁ s₃ where
  present n hn := h'.present n (h.present n hn)
  once hnodup hall := by
    obtain ⟨hnodup', hall'⟩ := h.once hnodup hall
    exact h'.once hnodup' hall'

theorem present_setfield (s : Package) (name : Bytes) (v : Value) (n : Bytes) :
    (s.setfield name v).present n = if n = name then v.toboolean else s.present n := by
  rw [Package.present, Package.setfield, StdMap.find?_set]
  split_ifs
  · rfl
  · rfl

theorem kept_setfield (s : Package) (name : Bytes) (hv : v.toboolean = true) :
    Kept s (s.setfield name v) := by
  have hpresent : ∀ n, s.present n = true → (s.setfield name v).present n = true := by
    intro n hn
    rw [present_setfield]
    split_ifs
    · exact hv
    · exact hn
  exact ⟨hpresent, fun hnodup hall => ⟨hnodup, fun n hn => hpresent n (hall n hn)⟩⟩

theorem present_start (s : Package) (name : Bytes) :
    (s.starting name).present name = true := by
  show (s.setfield name .sentinel).present name = true
  rw [present_setfield, if_pos rfl]
  rfl

/-- The code of a module that is not there starts. -/
theorem kept_start (hname : s.present name = false) :
    Kept s (s.starting name) where
  present := (@kept_setfield .sentinel s name rfl).present
  once hnodup hall := by
    have hset := @kept_setfield .sentinel s name rfl
    refine ⟨List.nodup_append.mpr ⟨hnodup, List.pairwise_singleton _ name, ?_⟩, ?_⟩
    · intro n hn n' hn' heq
      -- A module that is not there was not started before.
      rw [List.mem_singleton] at hn'
      rw [← hn', ← heq, hall n hn] at hname
      cases hname
    · intro n hn
      rcases List.mem_append.mp hn with hn | hn
      · exact hset.present n (hall n hn)
      · rw [List.mem_singleton.mp hn]
        exact present_start s name

theorem kept_finish {w : Option Value} (hw : w ≠ some (.boolean false)) :
    Kept s (finish name w s).2 := by
  have hset : Kept s (s.returned name w) := by
    cases w with
    | none => exact Kept.refl s
    | some v =>
      apply kept_setfield
      -- Every value but `false` counts as there.
      cases v with
      | boolean b =>
        cases b with
        | true => rfl
        | false => exact absurd rfl hw
      | sentinel => rfl
      | object n => rfl
  rw [finish]
  split_ifs
  · exact hset.trans (kept_setfield _ name rfl)
  · exact hset

/-- The code keeps what is present if the calls of `require` in it do. -/
theorem runChunk_kept {chunk : Chunk} (hnever : NeverFalse chunk)
    (hreq : ∀ name s r s', req name s = some (r, s') → Kept s s')
    (h : runChunk req chunk s = some (r, s')) :
    Kept s s' ∧ r ≠ .ok (some (.boolean false)) := by
  induction chunk generalizing s with
  -- By induction on the code, one operation at a time.
  | ret r' =>
    obtain ⟨rfl, rfl⟩ := Prod.mk.inj (Option.some.inj h)
    exact ⟨Kept.refl _, hnever⟩
  | call op k ih =>
    cases op with
    | require name =>
      rw [runChunk] at h
      obtain ⟨⟨r₁, s₁⟩, hcall, hrest⟩ := Option.bind_eq_some_iff.mp h
      obtain ⟨hkept, hr⟩ := ih r₁ (hnever r₁) hrest
      exact ⟨(hreq _ _ _ _ hcall).trans hkept, hr⟩
    | enter name n =>
      -- A table is entered, which counts as there.
      obtain ⟨hkept, hr⟩ := ih () (hnever ()) h
      exact ⟨(kept_setfield s name rfl).trans hkept, hr⟩

/-- **What is in `package.loaded` stays there**, and the code of no module runs twice. A module that
was found is there afterwards. -/
theorem require_kept (hnever : ∀ name chunk, find name = .ok chunk → NeverFalse chunk)
    (h : require find turns name s = some (r, s')) :
    Kept s s' ∧ ∀ chunk, find name = .ok chunk → s'.present name = true := by
  induction turns generalizing name s r s' with
  -- By induction on the depth of the recursion.
  | zero => cases h
  | succ turns ih =>
    rw [require] at h
    split_ifs at h with hsentinel hpresent
    · obtain ⟨-, rfl⟩ := Prod.mk.inj (Option.some.inj h)
      refine ⟨Kept.refl _, fun _ _ => ?_⟩
      -- The loop error: the sentinel is in the table.
      rw [Package.present, hsentinel]
      rfl
    · -- The module is there already.
      obtain ⟨-, rfl⟩ := Prod.mk.inj (Option.some.inj h)
      exact ⟨Kept.refl _, fun _ _ => hpresent⟩
    · cases hfind : find name with
      | error e =>
        rw [hfind] at h
        obtain ⟨-, rfl⟩ := Prod.mk.inj (Option.some.inj h)
        -- No loader finds the module: nothing changes.
        refine ⟨Kept.refl _, fun _ hchunk => ?_⟩
        cases hchunk
      | ok chunk =>
        rw [hfind] at h
        obtain ⟨⟨r₁, s₁⟩, hrun, hrest⟩ := Option.bind_eq_some_iff.mp h
        -- The sentinel is entered before the code runs, and what the code does keeps it.
        obtain ⟨hkept, hr⟩ :=
          runChunk_kept (hnever name chunk hfind) (fun _ _ _ _ hcall => (ih hcall).1) hrun
        have hstart := kept_start (Bool.eq_false_iff.mpr hpresent)
        have hnew := present_start s name
        cases r₁ with
        | error e =>
          -- A module whose code fails keeps the sentinel.
          obtain ⟨-, rfl⟩ := Prod.mk.inj (Option.some.inj hrest)
          exact ⟨hstart.trans hkept, fun _ _ => hkept.present name hnew⟩
        | ok w =>
          obtain ⟨-, rfl⟩ := Prod.mk.inj (Option.some.inj hrest)
          -- What the code returned takes its place.
          have hend := hkept.trans (@kept_finish s₁ name w fun heq => hr (congrArg Except.ok heq))
          exact ⟨hstart.trans hend, fun _ _ => hend.present name hnew⟩

/-! ## §4 The recursion ends -/

/-- The names that are not there yet. -/
def absent (names : List Bytes) (s : Package) : Nat := names.countP fun n => !s.present n

theorem absent_le (names : List Bytes) (h : ∀ n, s.present n = true → s'.present n = true) :
    absent names s' ≤ absent names s := by
  apply List.countP_mono_left
  intro n _ hn
  rw [Bool.not_eq_true'] at hn ⊢
  exact Bool.eq_false_iff.mpr fun hpresent => Bool.eq_false_iff.mp hn (h n hpresent)

/-- A module that starts is one less. -/
theorem absent_start {names : List Bytes} (hmem : name ∈ names) (hname : s.present name = false) :
    absent names (s.starting name) < absent names s := by
  have hkept := (kept_start hname).present
  obtain ⟨l, l', rfl⟩ := List.append_of_mem hmem
  -- The name itself counts one less, and no other name counts more.
  have hle := absent_le l hkept
  have hle' := absent_le l' hkept
  unfold absent at hle hle' ⊢
  rw [List.countP_append, List.countP_append, List.countP_cons, List.countP_cons, hname,
    present_start]
  show _ + (_ + 0) < _ + (_ + 1)
  omega

/-- The code ends if the calls of `require` in it do. -/
theorem runChunk_total (names : List Bytes) {m : Nat}
    (hkept : ∀ name s r s', req name s = some (r, s') → Kept s s')
    (hreq : ∀ name s, absent names s ≤ m → (req name s).isSome = true) (chunk : Chunk)
    (hs : absent names s ≤ m) : (runChunk req chunk s).isSome = true := by
  induction chunk generalizing s with
  | ret r => rfl
  | call op k ih =>
    cases op with
    | require name =>
      -- After the call of `require` no more names are absent than before.
      obtain ⟨⟨r₁, s₁⟩, hcall⟩ := Option.isSome_iff_exists.mp (hreq name s hs)
      rw [runChunk, hcall]
      exact ih r₁ ((absent_le names (hkept _ _ _ _ hcall).present).trans hs)
    | enter name n =>
      exact ih () ((absent_le names (kept_setfield s name rfl).present).trans hs)

/-- **`require` ends**: it calls itself only for modules that are not there yet. -/
theorem require_total (hnever : ∀ name chunk, find name = .ok chunk → NeverFalse chunk)
    {names : List Bytes} (hnames : ∀ name chunk, find name = .ok chunk → name ∈ names)
    (hturns : absent names s < turns) (name : Bytes) :
    (require find turns name s).isSome = true := by
  induction turns generalizing name s with
  | zero => exact absurd hturns (Nat.not_lt_zero _)
  | succ turns ih =>
    rw [require]
    split_ifs with hsentinel hpresent
    · rfl
    · rfl
    · cases hfind : find name with
      | error e => rfl
      | ok chunk =>
        -- The code starts with one absent name less, so one turn less is enough for its calls.
        have hless := absent_start (hnames name chunk hfind) (Bool.eq_false_iff.mpr hpresent)
        obtain ⟨⟨r₁, s₁⟩, hrun⟩ := Option.isSome_iff_exists.mp
          (@runChunk_total (s.starting name) (require find turns) names (turns - 1)
            (fun _ _ _ _ hcall => (require_kept hnever hcall).1)
            (fun name' s' hs' => @ih s' (by omega) name') chunk (by omega))
        dsimp only
        rw [hrun]
        cases r₁ with
        | error e => rfl
        | ok w => rfl

/-! ## §5 Many calls -/

/-- A run of calls keeps what is present, and the modules that were found are there at the end. -/
theorem requires_kept (hnever : ∀ name chunk, find name = .ok chunk → NeverFalse chunk)
    (calls : List Bytes) (h : requires find turns calls s = some s') :
    Kept s s' ∧ ∀ n ∈ calls, ∀ chunk, find n = .ok chunk → s'.present n = true := by
  induction calls generalizing s with
  | nil =>
    obtain rfl := Option.some.inj h
    exact ⟨Kept.refl s, fun n hn => absurd hn List.not_mem_nil⟩
  | cons name calls ih =>
    rw [requires] at h
    obtain ⟨⟨r, s₁⟩, hcall, hrest⟩ := Option.bind_eq_some_iff.mp h
    obtain ⟨hkept, hnew⟩ := require_kept hnever hcall
    obtain ⟨hkept', hall⟩ := ih hrest
    refine ⟨hkept.trans hkept', ?_⟩
    intro n hn chunk hfind
    rcases List.mem_cons.mp hn with rfl | hn
    · -- The later calls do not take the module away.
      exact hkept'.present n (hnew chunk hfind)
    · exact hall n hn chunk hfind

/-- A run of calls ends if finitely many names lead to a module. -/
theorem requires_total (hnever : ∀ name chunk, find name = .ok chunk → NeverFalse chunk)
    {names : List Bytes} (hnames : ∀ name chunk, find name = .ok chunk → name ∈ names)
    (calls : List Bytes) (hturns : absent names s < turns) :
    (requires find turns calls s).isSome = true := by
  induction calls generalizing s with
  | nil => rfl
  | cons name calls ih =>
    obtain ⟨⟨r, s₁⟩, hcall⟩ := Option.isSome_iff_exists.mp
      (require_total hnever hnames hturns name)
    -- The next call starts with no more absent names than this one did.
    have hless := absent_le names (require_kept hnever hcall).1.present
    rw [requires, hcall]
    exact ih (Nat.lt_of_le_of_lt hless hturns)

/-- A module that is there is answered without a change. -/
theorem require_present {n : Bytes} (hn : s.present n = true) (turns : Nat) :
    require find (turns + 1) n s =
      some (if s.loaded.find? n = some .sentinel then .error .loop
        else .ok (s.loaded.find? n), s) := by
  by_cases hsentinel : s.loaded.find? n = some .sentinel
  · rw [require, if_pos hsentinel, if_pos hsentinel]
  · rw [require, if_neg hsentinel, if_pos hn, if_neg hsentinel]

/-- **The code of a module runs once at most**, over any number of calls of `require` in a new Lua
state, whatever libraries it has, whatever modules require each other, and also if some of them
fail. A module whose code was run, or that was found, is in `package.loaded` from then on, and is
answered from there without a change. If finitely many names lead to a module, every call ends,
with a recursion that is not deeper than their number. -/
theorem modules_once (hnever : ∀ name chunk, find name = .ok chunk → NeverFalse chunk)
    (libraries : StdMap Bytes Value) (calls : List Bytes) :
    (∀ turns s, requires find turns calls ⟨libraries, []⟩ = some s →
      s.started.Nodup ∧ (∀ n ∈ s.started, s.present n = true) ∧
      (∀ n ∈ calls, ∀ chunk, find n = .ok chunk → s.present n = true) ∧
      ∀ n, s.present n = true → ∀ turns', require find (turns' + 1) n s =
        some (if s.loaded.find? n = some .sentinel then .error .loop
          else .ok (s.loaded.find? n), s)) ∧
    ∀ names : List Bytes, (∀ name chunk, find name = .ok chunk → name ∈ names) →
      ∀ turns, names.length < turns →
        (requires find turns calls ⟨libraries, []⟩).isSome = true := by
  refine ⟨?_, ?_⟩
  · intro turns s hrun
    obtain ⟨hkept, hall⟩ := requires_kept hnever calls hrun
    -- At the start the code of no module was run.
    obtain ⟨hnodup, hstarted⟩ := hkept.once List.nodup_nil fun n hn => absurd hn List.not_mem_nil
    exact ⟨hnodup, hstarted, hall, fun n hn turns' => require_present hn turns'⟩
  · intro names hnames turns hturns
    exact requires_total hnever hnames calls (Nat.lt_of_le_of_lt List.countP_le_length hturns)

/-- Two modules that require each other. -/
theorem modules_once_two :
    let find : Bytes → Except RequireError Chunk := fun name =>
      if name = ascii "a" then .ok (.call (.require (ascii "b")) fun _ => .ret (.ok none))
      else if name = ascii "b" then .ok (.call (.require (ascii "a")) fun _ => .ret (.ok none))
      else .error .notFound
    ∃ s, requires find 3 [ascii "a", ascii "b", ascii "a"] ⟨.empty, []⟩ = some s ∧
      s.started = [ascii "a", ascii "b"] ∧ (∀ n ∈ s.started, s.present n = true) ∧
      ∀ turns, require find (turns + 1) (ascii "b") s = some (.ok (some (.boolean true)), s) := by
  intro find
  have hcases : ∀ name chunk, find name = .ok chunk →
      name ∈ [ascii "a", ascii "b"] ∧ NeverFalse chunk := by
    intro name chunk h
    have hnever : ∀ other, NeverFalse (.call (.require other) fun _ => .ret (.ok none)) :=
      fun other r heq => Option.some_ne_none _ (Except.ok.inj heq).symm
    simp only [find] at h
    split_ifs at h with ha hb
    · obtain rfl := Except.ok.inj h
      exact ⟨ha ▸ List.mem_cons_self, hnever _⟩
    · obtain rfl := Except.ok.inj h
      exact ⟨hb ▸ List.mem_cons_of_mem _ List.mem_cons_self, hnever _⟩
  obtain ⟨hruns, hends⟩ := modules_once (fun name chunk h => (hcases name chunk h).2) .empty
    [ascii "a", ascii "b", ascii "a"]
  obtain ⟨s, hs⟩ := Option.isSome_iff_exists.mp
    (hends _ (fun name chunk h => (hcases name chunk h).1) 3 (by decide))
  obtain ⟨-, hstarted, hfound, hanswer⟩ := hruns 3 s hs
  have hb : s.present (ascii "b") = true := hfound (ascii "b") (by simp) _ rfl
  -- What the run comes to: `a` was started first, and its code required `b`.
  have hvalues : (requires find 3 [ascii "a", ascii "b", ascii "a"] ⟨.empty, []⟩).map
      (fun s => (s.started, s.loaded.find? (ascii "b"))) =
        some ([ascii "a", ascii "b"], some (.boolean true)) := by
    simp only [find]
    rfl
  rw [hs] at hvalues
  obtain ⟨hnames, hvalue⟩ := Prod.mk.inj (Option.some.inj hvalues)
  refine ⟨s, hs, hnames, hstarted, ?_⟩
  intro turns
  rw [hanswer _ hb turns, hvalue, if_neg (by decide)]

end MyLua.Service
