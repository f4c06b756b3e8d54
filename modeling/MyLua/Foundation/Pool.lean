import Mathlib.Data.List.Basic
import Mathlib.Data.List.Nodup
import Mathlib.Data.List.Range
import Mathlib.Data.List.Perm.Basic
import Mathlib.Tactic.Common

/-!
# Recycling Pools of Numbers

A pool hands out the numbers `1, 2, 3, ...` and takes them back. Numbers that came back are
kept in a free list and handed out again, last in first out, before a fresh one is made.

The usual representation is one stack: the free list, with the next fresh number below it.
`Pool.stack` is that representation, and `Pool.stack_take`, `Pool.stack_give` say what the two
operations do to it.
-/

namespace MyLua.Foundation

/-- A pool: the free numbers, the next fresh number, and the numbers that are out. -/
structure Pool where
  free : List Int
  next : Int
  out : List Int

namespace Pool

/-- Hand out a number. -/
def take (p : Pool) : Int × Pool :=
  match p.free with
  | n :: free => (n, { p with free := free, out := n :: p.out })
  | [] => (p.next, { p with next := p.next + 1, out := p.next :: p.out })

/-- Take back the number `n`. -/
def give (p : Pool) (n : Int) : Pool :=
  { p with free := n :: p.free, out := p.out.erase n }

/-- The one-stack representation. -/
def stack (p : Pool) : List Int := p.free ++ [p.next]

/-- Every number below `next` is either free or out, once. -/
structure Valid (p : Pool) : Prop where
  pos : 1 ≤ p.next
  nodup : (p.free ++ p.out).Nodup
  mem_iff : ∀ n, n ∈ p.free ++ p.out ↔ 1 ≤ n ∧ n < p.next

/-! ## Operations keep a pool valid -/

theorem take_valid {p : Pool} (hp : p.Valid) : p.take.2.Valid := by
  obtain ⟨free, next, out⟩ := p
  cases free with
  | cons n free =>
    -- The first free number moves to the ones that are out.
    have hperm : (free ++ n :: out).Perm (n :: free ++ out) := List.perm_middle
    exact ⟨hp.pos, hperm.nodup_iff.mpr hp.nodup,
      fun m => (hperm.mem_iff).trans (hp.mem_iff m)⟩
  | nil =>
    -- A fresh number is above all others, so the numbers below `next` grow by it.
    have hmem := hp.mem_iff
    have hpos : 1 ≤ next := hp.pos
    simp only [List.nil_append] at hmem
    refine ⟨by simp only [take]; omega, ?_, ?_⟩
    · simp only [take, List.nil_append, List.nodup_cons]
      refine ⟨fun h => ?_, by simpa using hp.nodup⟩
      have := (hmem next).mp h
      omega
    · intro m
      simp only [take, List.nil_append, List.mem_cons, hmem]
      omega

theorem give_valid {p : Pool} (hp : p.Valid) {n : Int} (hn : n ∈ p.out) : (p.give n).Valid := by
  have hperm : (n :: p.free ++ p.out.erase n).Perm (p.free ++ p.out) :=
    List.perm_middle.symm.trans ((List.perm_cons_erase hn).symm.append_left p.free)
  exact ⟨hp.pos, hperm.nodup_iff.mpr hp.nodup, fun m => (hperm.mem_iff).trans (hp.mem_iff m)⟩

/-! ## What a valid pool hands out -/

/-- The number handed out is not out already. -/
theorem take_notMem_out {p : Pool} (hp : p.Valid) : p.take.1 ∉ p.out := by
  have hnodup := (take_valid hp).nodup
  obtain ⟨free, next, out⟩ := p
  cases free with
  | cons n free =>
    simp only [take] at hnodup ⊢
    exact (List.nodup_cons.mp (List.nodup_append.mp hnodup).2.1).1
  | nil =>
    simp only [take] at hnodup ⊢
    exact (List.nodup_cons.mp (List.nodup_append.mp hnodup).2.1).1

theorem nodup_out {p : Pool} (hp : p.Valid) : p.out.Nodup := (List.nodup_append.mp hp.nodup).2.1

theorem lt_next_of_mem_free {p : Pool} (hp : p.Valid) {n : Int} (hn : n ∈ p.free) : n < p.next :=
  ((hp.mem_iff n).mp (List.mem_append_left _ hn)).2

theorem lt_next_of_mem_out {p : Pool} (hp : p.Valid) {n : Int} (hn : n ∈ p.out) : n < p.next :=
  ((hp.mem_iff n).mp (List.mem_append_right _ hn)).2

/-- No number of the stack is out. -/
theorem notMem_out_of_mem_stack {p : Pool} (hp : p.Valid) {n : Int} (hn : n ∈ p.stack) :
    n ∉ p.out := by
  intro hout
  simp only [stack, List.mem_append, List.mem_singleton] at hn
  rcases hn with hfree | rfl
  · exact (List.nodup_append.mp hp.nodup).2.2 n hfree n hout rfl
  · -- The bottom element is `next`, and every number that is out is below it.
    exact absurd (lt_next_of_mem_out hp hout) (by omega)

/-- The stack of a valid pool has no duplicates. -/
theorem nodup_stack {p : Pool} (hp : p.Valid) : p.stack.Nodup := by
  rw [stack, List.nodup_append]
  refine ⟨(List.nodup_append.mp hp.nodup).1, List.nodup_singleton _, ?_⟩
  intro n hn m hm
  have := lt_next_of_mem_free hp hn
  rw [List.mem_singleton] at hm
  omega

/-- Without duplicates and with the members `1, ..., next - 1`, the numbers are a permutation of
them. -/
theorem perm_range {p : Pool} (hp : p.Valid) : (p.free ++ p.out).Perm
    ((List.range' 1 (p.next - 1).toNat).map (fun k : Nat => (k : Int))) := by
  have hpos := hp.pos
  have hcast : Function.Injective (fun k : Nat => (k : Int)) := fun _ _ h => Int.ofNat.inj h
  rw [List.perm_ext_iff_of_nodup hp.nodup (List.Nodup.map hcast List.nodup_range')]
  intro n
  rw [hp.mem_iff]
  simp only [List.mem_map, List.mem_range'_1]
  constructor
  · intro h
    exact ⟨n.toNat, by omega, by omega⟩
  · rintro ⟨k, hk, rfl⟩
    omega

/-- The numbers below `next`, counted. -/
theorem length_add_length {p : Pool} (hp : p.Valid) :
    ((p.free.length + p.out.length : Nat) : Int) = p.next - 1 := by
  have hpos := hp.pos
  have hlen := (perm_range hp).length_eq
  simp only [List.length_append, List.length_map, List.length_range'] at hlen
  omega

theorem length_out_le {p : Pool} (hp : p.Valid) : (p.out.length : Int) ≤ p.next - 1 := by
  have := length_add_length hp
  omega

/-- A number handed out was free, or it is the fresh one and all smaller ones are out. -/
theorem take_cases {p : Pool} (hp : p.Valid) :
    (p.take.1 < p.next ∧ p.take.2.next = p.next) ∨
      (p.take.1 = p.next ∧ p.take.2.next = p.next + 1 ∧ (p.take.2.out.length : Int) = p.next) := by
  have hcount := length_add_length (take_valid hp)
  obtain ⟨free, next, out⟩ := p
  cases free with
  | cons n free => exact .inl ⟨lt_next_of_mem_free hp List.mem_cons_self, rfl⟩
  | nil =>
    -- With no free number left, all numbers below `next` are out.
    refine .inr ⟨rfl, rfl, ?_⟩
    simp only [take, List.length_nil] at hcount ⊢
    omega

/-! ## The one-stack representation -/

/-- Popping the stack, and leaving the successor when it was the last element, is `take`. -/
theorem stack_take {p : Pool} {n : Int} {rest : List Int} (h : p.stack = n :: rest) :
    p.take.1 = n ∧ p.take.2.stack = if rest.length = 0 then [n + 1] else rest := by
  obtain ⟨free, next, out⟩ := p
  cases free with
  | cons m free =>
    simp only [stack, List.cons_append, List.cons.injEq] at h
    obtain ⟨rfl, rfl⟩ := h
    simp [take, stack]
  | nil =>
    simp only [stack, List.nil_append, List.cons.injEq] at h
    obtain ⟨rfl, rfl⟩ := h
    simp [take, stack]

theorem out_take (p : Pool) : p.take.2.out = p.take.1 :: p.out := by
  obtain ⟨free, next, out⟩ := p
  cases free <;> rfl

/-- A stack of one number holds the next fresh one. -/
theorem eq_of_stack_eq_singleton {p : Pool} (hp : p.Valid) {n : Int} (h : p.stack = [n]) :
    n = p.out.length + 1 := by
  have hcount := length_add_length hp
  obtain ⟨free, next, out⟩ := p
  cases free with
  | cons m free => simp [stack] at h
  | nil =>
    simp only [stack, List.nil_append, List.cons.injEq, and_true] at h
    simp only [List.length_nil, Nat.zero_add] at hcount
    dsimp only at hcount ⊢
    omega

/-- Pushing `n` on the stack is `give`. -/
theorem stack_give (p : Pool) (n : Int) : (p.give n).stack = n :: p.stack := rfl

end Pool

end MyLua.Foundation
