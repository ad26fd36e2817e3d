import Mathlib.Data.Fintype.Card
import Mathlib.Logic.Function.Basic

set_option autoImplicit false

/-!
# Singly linked lists through a `next` field

A list is a head pointer `h : Option α` and a link function `next : α → Option α`, with `none`
ending it. `Reads next h l` says that following `next` from `h` meets the elements of `l` and then
the end. A chain that ends is finite, so it never meets a node twice (`Reads.nodup`): being
duplicate-free is part of being a list.

A C program appends by walking a pointer to a pointer, `for(pp = &head; *pp; pp = &(*pp)->next);`,
and storing through it. The location `pp` is an `Option α` here, as the sentinel is in `DList`:
`none` is the head pointer and `some x` the `next` field of `x`. The walk stops at the field of the
last node, or at the head of an empty list (`walkEnd_none`), and the store there appends
(`Reads.snoc`).
-/
namespace Chain

variable {α : Type*}

/-- Following `next` from `h` reads the elements of `l`, then the end of the list. -/
inductive Reads (next : α → Option α) : Option α → List α → Prop
  | nil : Reads next none []
  | cons {x : α} {l : List α} : Reads next (next x) l → Reads next (some x) (x :: l)

def toList (next : α → Option α) : Option α → Nat → List α
  | none, _ => []
  | some _, 0 => []
  | some x, fuel + 1 => x :: toList next (next x) fuel

def get (h : Option α) (next : α → Option α) : Option α → Option α
  | none => h
  | some x => next x

def walkEnd (h : Option α) (next : α → Option α) (pp : Option α) : Nat → Option (Option α)
  | 0 => none
  | fuel + 1 =>
    match get h next pp with
    | none => some pp
    | some y => walkEnd h next (some y) fuel

def set [DecidableEq α] (h : Option α) (next : α → Option α) (pp v : Option α) :
    Option α × (α → Option α) :=
  match pp with
  | none => (v, next)
  | some x => (h, Function.update next x v)

variable {next next' : α → Option α} {h : Option α} {l l₁ l₂ : List α}

theorem Reads.head? (hr : Reads next h l) : h = l.head? := by
  cases hr <;> rfl

theorem Reads.of_cons {x y : α} (hr : Reads next (some x) (y :: l)) :
    x = y ∧ Reads next (next x) l := by
  cases hr with
  | cons hr => exact ⟨rfl, hr⟩

theorem reads_some_iff {x : α} : Reads next (some x) l ↔ ∃ t, l = x :: t ∧ Reads next (next x) t := by
  constructor
  · intro hr
    cases hr with
    | cons hr => exact ⟨_, rfl, hr⟩
  · rintro ⟨t, rfl, hr⟩
    exact .cons hr

theorem Reads.unique (h₁ : Reads next h l₁) (h₂ : Reads next h l₂) : l₁ = l₂ := by
  induction h₁ generalizing l₂ with
  | nil => cases h₂; rfl
  | cons _ ih =>
    obtain ⟨t, rfl, ht⟩ := reads_some_iff.mp h₂
    rw [ih ht]

theorem Reads.from_mem (hr : Reads next h l) {y : α} (hy : y ∈ l) :
    ∃ t, Reads next (some y) t ∧ t.length ≤ l.length := by
  induction hr with
  | nil => exact absurd hy List.not_mem_nil
  | @cons x l hr ih =>
    rcases List.mem_cons.mp hy with rfl | hy
    · exact ⟨_, .cons hr, le_refl _⟩
    · obtain ⟨t, ht, hlen⟩ := ih hy
      exact ⟨t, ht, by rw [List.length_cons]; omega⟩

theorem Reads.nodup (hr : Reads next h l) : l.Nodup := by
  induction hr with
  | nil => exact List.nodup_nil
  | @cons x l hr ih =>
    refine List.nodup_cons.mpr ⟨fun hx => ?_, ih⟩
    obtain ⟨t, ht, hlen⟩ := hr.from_mem hx
    have heq : t = x :: l := ht.unique (.cons hr)
    rw [heq, List.length_cons] at hlen
    omega

theorem Reads.length_le_card [Fintype α] (hr : Reads next h l) : l.length ≤ Fintype.card α :=
  hr.nodup.length_le_card

theorem Reads.frame (hr : Reads next h l) (hf : ∀ x ∈ l, next' x = next x) : Reads next' h l := by
  induction hr with
  | nil => exact .nil
  | @cons x l _ ih =>
    refine .cons ?_
    rw [hf x List.mem_cons_self]
    exact ih fun y hy => hf y (List.mem_cons_of_mem x hy)

theorem Reads.toList_eq (hr : Reads next h l) {fuel : Nat} (hf : l.length ≤ fuel) :
    toList next h fuel = l := by
  induction hr generalizing fuel with
  | nil => cases fuel <;> rfl
  | @cons x l _ ih =>
    obtain ⟨fuel, rfl⟩ : ∃ k, fuel = k + 1 := ⟨fuel - 1, by rw [List.length_cons] at hf; omega⟩
    rw [toList, ih (by rw [List.length_cons] at hf; omega)]

theorem walkEnd_some {x : α} (hr : Reads next (next x) l) {fuel : Nat} (hf : l.length < fuel) :
    walkEnd h next (some x) fuel = some (x :: l).getLast? := by
  induction l generalizing x fuel with
  | nil =>
    obtain ⟨fuel, rfl⟩ : ∃ k, fuel = k + 1 := ⟨fuel - 1, by omega⟩
    have hx : next x = none := hr.head?
    rw [walkEnd, get, hx]
    rfl
  | cons y l ih =>
    obtain ⟨fuel, rfl⟩ : ∃ k, fuel = k + 1 := ⟨fuel - 1, by omega⟩
    have hx : next x = some y := hr.head?
    rw [hx] at hr
    have hy := hr.of_cons.2
    rw [walkEnd, get, hx]
    dsimp only
    rw [ih hy (by rw [List.length_cons] at hf; omega), List.getLast?_cons_cons]

theorem walkEnd_none (hr : Reads next h l) {fuel : Nat} (hf : l.length < fuel) :
    walkEnd h next none fuel = some l.getLast? := by
  obtain ⟨fuel, rfl⟩ : ∃ k, fuel = k + 1 := ⟨fuel - 1, by omega⟩
  cases hr with
  | nil => rfl
  | @cons x l hr =>
    rw [walkEnd, get]
    dsimp only
    rw [walkEnd_some hr (by rw [List.length_cons] at hf; omega)]

section Snoc

variable [DecidableEq α]

theorem set_getLast?_fst (h : Option α) (next : α → Option α) (l : List α) (v : Option α) :
    (set h next l.getLast? v).1 = if l = [] then v else h := by
  cases l with
  | nil => rfl
  | cons x t =>
    rw [if_neg (List.cons_ne_nil x t), List.getLast?_eq_some_getLast (List.cons_ne_nil x t)]
    rfl

theorem Reads.snoc_update {a y : α} (hr : Reads next h l) (hl : l.getLast? = some y)
    (ha : a ∉ l) (hna : next a = none) : Reads (Function.update next y (some a)) h (l ++ [a]) := by
  have hnd := hr.nodup
  induction hr with
  | nil => exact absurd hl (by simp)
  | @cons x l hr ih =>
    rw [List.cons_append]
    refine .cons ?_
    have hax : a ≠ x := fun he => ha (he ▸ List.mem_cons_self)
    cases l with
    | nil =>
      have hyx : y = x := (Option.some.inj hl).symm
      subst hyx
      rw [List.nil_append, Function.update_self]
      refine .cons ?_
      rw [Function.update_of_ne hax, hna]
      exact .nil
    | cons z l =>
      have hyl : y ∈ z :: l := List.mem_of_getLast? (by rwa [List.getLast?_cons_cons] at hl)
      have hxy : x ≠ y := fun he => (List.nodup_cons.mp hnd).1 (he ▸ hyl)
      rw [List.cons_append, Function.update_of_ne hxy]
      exact ih (by rwa [List.getLast?_cons_cons] at hl) (fun h' => ha (List.mem_cons_of_mem x h'))
        (List.nodup_cons.mp hnd).2

theorem Reads.snoc {a : α} (hr : Reads next h l) (ha : a ∉ l) (hna : next a = none) :
    Reads (set h next l.getLast? (some a)).2 (set h next l.getLast? (some a)).1 (l ++ [a]) := by
  cases hl : l.getLast? with
  | none =>
    have hnil : l = [] := List.getLast?_eq_none_iff.mp hl
    subst hnil
    cases hr
    show Reads next (some a) ([] ++ [a])
    exact .cons (by rw [hna]; exact .nil)
  | some y => exact hr.snoc_update hl ha hna

end Snoc

end Chain
