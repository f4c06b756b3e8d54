import Mathlib.Data.List.Basic
import Mathlib.Tactic.Common

/-!
# Runs and Their Histories

A system is a step relation labelled with events. A run is recorded as its history, the
list of its events with the newest first, so that a function of the past (what a client
holds, what was stored last) is a recursion on the history.

## Contents

- `Runs`: the states a history leads to.
- `Along`: every event of a history is allowed after the events before it.
- `Always`: a property of every moment of a history.
- `inOrder`: what the events contribute, the oldest first.
- `Recorded`: steps whose events carry the state they were made in.
- `Runs.invariant`, `Runs.along`: induction over runs, packaged once.
-/

namespace MyLua.Foundation

variable {S E : Type*}

/-- From `s₀`, the events of the history lead to the state. -/
inductive Runs (step : S → E → S → Prop) (s₀ : S) : List E → S → Prop where
  | start : Runs step s₀ [] s₀
  | next {h : List E} {s s' : S} {e : E} :
      Runs step s₀ h s → step s e s' → Runs step s₀ (e :: h) s'

/-- Every event satisfies `P` with respect to the events before it. -/
def Along (P : List E → E → Prop) : List E → Prop
  | [] => True
  | e :: h => P h e ∧ Along P h

/-- `Q` holds of the history at every moment, the present included. -/
def Always (Q : List E → Prop) : List E → Prop
  | [] => Q []
  | e :: h => Q (e :: h) ∧ Always Q h

instance Always.decidable {Q : List E → Prop} [∀ h, Decidable (Q h)] :
    (h : List E) → Decidable (Always Q h)
  | [] => inferInstanceAs (Decidable (Q []))
  | e :: h =>
    have := Always.decidable (Q := Q) h
    inferInstanceAs (Decidable (Q (e :: h) ∧ Always Q h))

/-- What the events of a history contribute, in the order in which they happened. -/
def inOrder {M : Type*} (f : E → Option M) (h : List E) : List M := h.reverse.filterMap f

theorem inOrder_cons {M : Type*} (f : E → Option M) (e : E) (h : List E) :
    inOrder f (e :: h) = inOrder f h ++ (f e).toList := by
  rw [inOrder, List.reverse_cons, List.filterMap_append, inOrder]
  cases hf : f e <;> simp [List.filterMap, hf]

/-- The same steps, recorded with the state in which they were made. -/
def Recorded (step : S → E → S → Prop) (s : S) (e : S × E) (s' : S) : Prop :=
  e.1 = s ∧ step s e.2 s'

/-! ## Moments of a history -/

theorem along_true (h : List E) : Along (fun _ _ => True) h := by
  induction h with
  | nil => trivial
  | cons e h ih => exact ⟨trivial, ih⟩

theorem Along.mono {P P' : List E → E → Prop} {h : List E} (hP : Along P h)
    (himp : ∀ older e, P older e → P' older e) : Along P' h := by
  induction h with
  | nil => trivial
  | cons e h ih => exact ⟨himp h e hP.1, ih hP.2⟩

/-- After an event, everything before it was allowed too. -/
theorem Along.hereditary {P : List E → E → Prop} {h : List E} (hP : Along P h) :
    Along (fun older e => P older e ∧ Along P older) h := by
  induction h with
  | nil => trivial
  | cons e h ih => exact ⟨hP, ih hP.2⟩

theorem Along.and {P P' : List E → E → Prop} {h : List E} (hP : Along P h) (hP' : Along P' h) :
    Along (fun older e => P older e ∧ P' older e) h := by
  induction h with
  | nil => trivial
  | cons e h ih => exact ⟨⟨hP.1, hP'.1⟩, ih hP.2 hP'.2⟩

/-- What holds at every moment holds after every event. -/
theorem Always.along {Q : List E → Prop} {h : List E} (hQ : Always Q h) :
    Along (fun older e => Q (e :: older)) h := by
  induction h with
  | nil => trivial
  | cons e h ih => exact ⟨hQ.1, ih hQ.2⟩

/-- A property of every event, together with the events before it. -/
theorem along_of_forall_mem {P : E → Prop} {h : List E} (hall : ∀ e ∈ h, P e) :
    Along (fun older e => P e ∧ ∀ e' ∈ older, P e') h := by
  induction h with
  | nil => trivial
  | cons e h ih =>
    have hh : ∀ e' ∈ h, P e' := fun e' he' => hall e' (List.mem_cons_of_mem e he')
    exact ⟨⟨hall e List.mem_cons_self, hh⟩, ih hh⟩

theorem Always.now {Q : List E → Prop} {h : List E} (hQ : Always Q h) : Q h := by
  cases h with
  | nil => exact hQ
  | cons e h => exact hQ.1

/-! ## Invariants -/

variable {step : S → E → S → Prop} {s₀ s : S} {h : List E}

/-- A run goes on where another one ended. -/
theorem Runs.trans {s' : S} {later : List E} (hrun : Runs step s₀ h s)
    (hlater : Runs step s later s') : Runs step s₀ (later ++ h) s' := by
  induction hlater with
  | start => exact hrun
  | next _ hs ih => exact ih.next hs

/-- A run under more conditions is a run. -/
theorem Runs.mono {step' : S → E → S → Prop} (himp : ∀ {s e s'}, step s e s' → step' s e s')
    (hrun : Runs step s₀ h s) : Runs step' s₀ h s := by
  induction hrun with
  | start => exact .start
  | next _ hs ih => exact ih.next (himp hs)

/-- Every step of a run is one of the events of its history. -/
theorem Runs.events (hrun : Runs step s₀ h s) :
    Runs (fun s e s' => e ∈ h ∧ step s e s') s₀ h s := by
  induction hrun with
  | start => exact .start
  | @next h s s' e _ hs ih =>
    -- The earlier events are events of the longer history too.
    have hlonger : Runs (fun s e' s' => e' ∈ e :: h ∧ step s e' s') s₀ h s :=
      ih.mono fun hstep => ⟨List.mem_cons_of_mem _ hstep.1, hstep.2⟩
    exact hlonger.next ⟨List.mem_cons_self, hs⟩

/-- A relation between history and state that holds at the start and is kept by every step
holds after every run. -/
theorem Runs.invariant {I : List E → S → Prop} (hstart : I [] s₀)
    (hstep : ∀ {h s e s'}, I h s → step s e s' → I (e :: h) s') (hrun : Runs step s₀ h s) :
    I h s := by
  induction hrun with
  | start => exact hstart
  | next _ hs ih => exact hstep ih hs

/-- What every step of a run satisfies, from what holds of the run before it. -/
theorem Runs.along {P Q : List E → E → Prop}
    (hstep : ∀ {h s e s'}, Runs step s₀ h s → Along P h → P h e → step s e s' → Q h e)
    (hrun : Runs step s₀ h s) (hP : Along P h) : Along Q h := by
  induction hrun with
  | start => trivial
  | next hr hs ih => exact ⟨hstep hr hP.2 hP.1 hs, ih hP.2⟩

end MyLua.Foundation
