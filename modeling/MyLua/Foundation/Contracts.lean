import MyLua.Foundation.Interactive
import Mathlib.Order.Lattice.Nat

/-!
# Contracts of Programs That Share an Object

A party that runs a program on a shared object has a ghost state: what it owns and what it owes.
A contract says which operations a ghost state allows, what the party may rely on in their results,
and which ghost state follows. If an invariant of the object and of all ghost states makes every
allowed operation keep its part of the contract, every program can be checked alone.

## Contents

- `Prog.bind`, `Prog.lift`: one program after another, and a program on a part of the object.
- `Contract`, `Prog.Keeps`: contracts, and the programs that keep them.
- `Prog.Keeps.mono`, `Prog.Keeps.bind`: the rules for a program.
- `Prog.Within`, `Prog.depth`: how many operations a program performs at most.
- `Contract.Upheld.act`: one operation of one party among all the others.
-/

namespace MyLua.Foundation

variable {Op Op' : Type} {Res : Op → Type} {Res' : Op' → Type} {α β σ W : Type}

/-! ## §1 Composed programs -/

/-- One program, and then another one that gets its result. -/
def Prog.bind : Prog Op Res α → (α → Prog Op Res β) → Prog Op Res β
  | .ret a, f => f a
  | .call op k, f => .call op fun r => (k r).bind f

/-- A program that performs its operations as operations of a larger object. -/
def Prog.lift (embed : Op → Op') (res : (op : Op) → Res' (embed op) → Res op) :
    Prog Op Res α → Prog Op' Res' α
  | .ret a => .ret a
  | .call op k => .call (embed op) fun r => (k (res op r)).lift embed res

/-- An execution of the first program is one of both. -/
theorem Prog.Does.bind {p q : Prog Op Res α} {acts : List (Act Op Res)} (h : p.Does acts q)
    (f : α → Prog Op Res β) : (p.bind f).Does acts (q.bind f) := by
  induction h with
  | nothing p => exact .nothing _
  | call _ ih => exact .call ih

/-! ## §2 Contracts -/

/-- The operations a party may perform in a ghost state, the results it may rely on, and its
ghost state afterwards. -/
structure Contract (Op : Type) (Res : Op → Type) (σ : Type) where
  may : σ → Op → Prop
  gets : σ → (op : Op) → Res op → Prop
  next : σ → (op : Op) → Res op → σ

/-- From the ghost state, the program only performs operations it may perform, whatever results
it gets, and returns in a ghost state and with a result that `fin` allows. -/
def Prog.Keeps (C : Contract Op Res σ) (fin : σ → α → Prop) : Prog Op Res α → σ → Prop
  | .ret a, s => fin s a
  | .call op k, s => C.may s op ∧ ∀ r, C.gets s op r → (k r).Keeps C fin (C.next s op r)

variable {C : Contract Op Res σ}

/-- A program that ends well in one sense ends well in a weaker one. -/
theorem Prog.Keeps.mono {fin fin' : σ → α → Prop} {p : Prog Op Res α} {s : σ}
    (hp : p.Keeps C fin s) (himp : ∀ s a, fin s a → fin' s a) : p.Keeps C fin' s := by
  induction p generalizing s with
  | ret a => exact himp s a hp
  | call op k ih => exact ⟨hp.1, fun r hr => ih r (hp.2 r hr)⟩

/-- The second program goes on where the first one ended. -/
theorem Prog.Keeps.bind {fin : σ → α → Prop} {fin' : σ → β → Prop} {p : Prog Op Res α}
    {f : α → Prog Op Res β} {s : σ} (hp : p.Keeps C fin s)
    (hf : ∀ s a, fin s a → (f a).Keeps C fin' s) : (p.bind f).Keeps C fin' s := by
  induction p generalizing s with
  -- The first program is done: its end is the start of the second one.
  | ret a => exact hf s a hp
  | call op k ih => exact ⟨hp.1, fun r hr => ih r (hp.2 r hr)⟩

/-! ## §3 Parties -/

/-- The ghost state after some operations. -/
def Contract.after (C : Contract Op Res σ) (s : σ) (acts : List (Act Op Res)) : σ :=
  acts.foldl (fun s a => C.next s a.op a.res) s

@[simp] theorem Contract.after_nil (s : σ) : C.after s [] = s := rfl

@[simp] theorem Contract.after_snoc (s : σ) (acts : List (Act Op Res)) (op : Op) (r : Res op) :
    C.after s (acts ++ [⟨op, r⟩]) = C.next (C.after s acts) op r := by
  rw [Contract.after, List.foldl_append]
  rfl

/-- An operation that one of the parties may perform has a result it may rely on, and keeps the
invariant of the object and of the ghost states of all parties. -/
def Contract.Upheld (C : Contract Op Res σ) (sem : W → (op : Op) → Res op → W → Prop)
    (I : W → List σ → Prop) : Prop :=
  ∀ ⦃w w' before s after op r⦄, I w (before ++ s :: after) → C.may s op → sem w op r w' →
    C.gets s op r ∧ I w' (before ++ C.next s op r :: after)

/-- A party performs the next operation of its program. -/
theorem Contract.Upheld.act {sem : W → (op : Op) → Res op → W → Prop} {I : W → List σ → Prop}
    {fin : σ → α → Prop} (hC : C.Upheld sem I) {w w' : W} {before after : List σ} {s : σ} {op : Op}
    {k : Res op → Prog Op Res α} {r : Res op} (hI : I w (before ++ s :: after))
    (hkeeps : (Prog.call op k).Keeps C fin s) (hsem : sem w op r w') :
    I w' (before ++ C.next s op r :: after) ∧ (k r).Keeps C fin (C.next s op r) := by
  obtain ⟨hmay, hrest⟩ := hkeeps
  obtain ⟨hgets, hI'⟩ := hC hI hmay hsem
  exact ⟨hI', hrest r hgets⟩

/-! ## §4 Bounded programs -/

/-- The program performs at most so many operations, whatever results it gets. -/
def Prog.Within : Nat → Prog Op Res α → Prop
  | _, .ret _ => True
  | 0, .call _ _ => False
  | n + 1, .call _ k => ∀ r, (k r).Within n

theorem Prog.within_ret (n : Nat) (a : α) : (Prog.ret a : Prog Op Res α).Within n := by
  cases n <;> trivial

theorem Prog.Within.mono {p : Prog Op Res α} {m n : Nat} (hp : p.Within m) (hle : m ≤ n) :
    p.Within n := by
  induction p generalizing m n with
  | ret a => exact within_ret n a
  | call op k ih =>
    cases m with
    | zero => exact hp.elim
    | succ m =>
      cases n with
      | zero => omega
      | succ n => exact fun r => ih r (hp r) (by omega)

theorem Prog.Within.bind {p : Prog Op Res α} {f : α → Prog Op Res β} {m n : Nat}
    (hp : p.Within m) (hf : ∀ a, (f a).Within n) : (p.bind f).Within (m + n) := by
  induction p generalizing m with
  | ret a => exact (hf a).mono (Nat.le_add_left n m)
  | call op k ih =>
    cases m with
    | zero => exact hp.elim
    | succ m =>
      rw [Nat.succ_add]
      exact fun r => ih r (hp r)

theorem Prog.Within.lift {embed : Op → Op'} {res : (op : Op) → Res' (embed op) → Res op}
    {p : Prog Op Res α} {n : Nat} (hp : p.Within n) : (p.lift embed res).Within n := by
  induction p generalizing n with
  | ret a => exact within_ret n a
  | call op k ih =>
    cases n with
    | zero => exact hp.elim
    | succ n => exact fun r => ih (res op r) (hp (res op r))

/-- The least such number, if there is one. -/
noncomputable def Prog.depth (p : Prog Op Res α) : Nat := sInf {n | p.Within n}

theorem Prog.Within.depth_le {p : Prog Op Res α} {n : Nat} (hp : p.Within n) : p.depth ≤ n :=
  Nat.sInf_le hp

theorem Prog.Within.depth {p : Prog Op Res α} {n : Nat} (hp : p.Within n) : p.Within p.depth :=
  Nat.sInf_mem (s := {n | p.Within n}) ⟨n, hp⟩

/-- After an operation there is less to do. -/
theorem Prog.Within.depth_lt {op : Op} {k : Res op → Prog Op Res α} {n : Nat}
    (hp : (Prog.call op k).Within n) (r : Res op) : (k r).depth < (Prog.call op k).depth := by
  have hleast := hp.depth
  cases hd : (Prog.call op k).depth with
  | zero =>
    -- A program that is about to call is not done after no operation.
    rw [hd] at hleast
    exact hleast.elim
  | succ m =>
    rw [hd] at hleast
    exact Nat.lt_succ_of_le (hleast r).depth_le

end MyLua.Foundation
