import Mathlib.Data.List.Nodup
import Mathlib.Logic.Function.Basic

/-!
# LinkedList Lists

Singly linked lists whose links are kept in the nodes.

A node names its successor, so a list is nothing but a head and a map from
nodes to successors. `LinkedList` says which sequence of nodes a head leads
through. There is at most one, and it never repeats a node, because the
successor of a node is a function of the node: a node met twice would lead
back to itself for ever.

So a head that leads through a sequence at all leads through a finite one
without repetition, and both ways of changing a list can be stated on the
sequence: a node put in front, and a node taken out by redirecting the link
that points to it.

## Main definitions

* `LinkedList`: The sequence of nodes a head leads through.

## Theorems

* `LinkedList.unique`: A head leads through one sequence only.
* `LinkedList.nodup`: No node is met twice.
* `LinkedList.congr`: Only the links of the nodes on the list matter.
* `LinkedList.push`: Putting a node in front.
* `LinkedList.unlink`: Redirecting the link to a node takes it out.
* `LinkedList.next_ne_self`: A node that follows itself is on no list.
-/

namespace Microv

variable {ι : Type*}

/-- From `p`, following `next` leads through the nodes of `l` and ends. -/
def LinkedList (next : ι → Option ι) : Option ι → List ι → Prop
  | p, [] => p = none
  | p, i :: l => p = some i ∧ LinkedList next (next i) l

variable {next next' : ι → Option ι} {p : Option ι} {l l' : List ι}

theorem LinkedList.unique (h : LinkedList next p l) (h' : LinkedList next p l') : l = l' := by
  induction l generalizing p l' with
  | nil =>
      cases l' with
      | nil => rfl
      | cons i l' =>
          exact absurd (h.symm.trans h'.1) (by simp only [reduceCtorEq, not_false_eq_true])
  | cons i l ih =>
      cases l' with
      | nil => exact absurd (h'.symm.trans h.1) (by simp only [reduceCtorEq, not_false_eq_true])
      | cons j l' =>
          have hij : i = j := Option.some.inj (h.1.symm.trans h'.1)
          subst hij
          rw [ih h.2 h'.2]

/-- A node of a list heads the rest of it. -/
theorem LinkedList.from_mem {i : ι} (h : LinkedList next p l) (hi : i ∈ l) :
    ∃ l₁ l₂, l = l₁ ++ i :: l₂ ∧ LinkedList next (next i) l₂ := by
  induction l generalizing p with
  | nil => exact absurd hi List.not_mem_nil
  | cons j l ih =>
      rcases List.mem_cons.mp hi with rfl | hl
      · exact ⟨[], l, rfl, h.2⟩
      · rcases ih h.2 hl with ⟨l₁, l₂, hl, hn⟩
        exact ⟨j :: l₁, l₂, by rw [hl, List.cons_append], hn⟩

theorem LinkedList.nodup (h : LinkedList next p l) : l.Nodup := by
  induction l generalizing p with
  | nil => exact List.nodup_nil
  | cons i l ih =>
      refine List.nodup_cons.mpr ⟨fun hi => ?_, ih h.2⟩
      -- The node would head both the rest of the list and a shorter part of it.
      rcases h.2.from_mem hi with ⟨l₁, l₂, hl, hn⟩
      have hlen : l.length = l₂.length := congrArg List.length (h.2.unique hn)
      rw [hl, List.length_append, List.length_cons] at hlen
      omega

/-- A node that follows itself is on no list. -/
theorem LinkedList.next_ne_self {i : ι} (h : LinkedList next p l) (hi : i ∈ l) :
    next i ≠ some i := by
  intro hloop
  rcases h.from_mem hi with ⟨l₁, l₂, hl, hn⟩
  rw [hloop] at hn
  cases l₂ with
  | nil => exact absurd hn (by simp only [LinkedList, reduceCtorEq, not_false_eq_true])
  | cons j l₂ =>
      have hij : i = j := Option.some.inj hn.1
      exact (List.nodup_cons.mp ((List.nodup_append.mp (hl ▸ h.nodup)).2.1)).1
        (hij ▸ List.mem_cons_self)

theorem LinkedList.congr (h : LinkedList next p l) (hn : ∀ i ∈ l, next' i = next i) :
    LinkedList next' p l := by
  induction l generalizing p with
  | nil => exact h
  | cons i l ih =>
      refine ⟨h.1, ?_⟩
      rw [hn i List.mem_cons_self]
      exact ih h.2 (fun j hj => hn j (List.mem_cons_of_mem i hj))

section

variable [DecidableEq ι]

theorem LinkedList.update_of_notMem (h : LinkedList next p l) {i : ι} (hi : i ∉ l) (q : Option ι) :
    LinkedList (Function.update next i q) p l := by
  refine h.congr ?_
  intro j hj
  rw [Function.update_of_ne]
  rintro rfl
  exact hi hj

theorem LinkedList.push (h : LinkedList next p l) {i : ι} (hi : i ∉ l) :
    LinkedList (Function.update next i p) (some i) (i :: l) := by
  refine ⟨rfl, ?_⟩
  rw [Function.update_self]
  exact h.update_of_notMem hi p

/-- Redirecting the link of the node before `i` to what follows `i`. -/
theorem LinkedList.unlink {i j : ι} {l₁ l₂ : List ι} (h : LinkedList next p (l₁ ++ j :: i :: l₂)) :
    LinkedList (Function.update next j (next i)) p (l₁ ++ j :: l₂) := by
  induction l₁ generalizing p with
  | nil =>
      -- The node before `i` is the first, and does not come again.
      have hj : j ∉ l₂ := by
        intro hj
        exact (List.nodup_cons.mp h.nodup).1 (List.mem_cons_of_mem i hj)
      refine ⟨h.1, ?_⟩
      rw [Function.update_self]
      exact h.2.2.update_of_notMem hj _
  | cons k l₁ ih =>
      -- A node further in front keeps its link.
      have hkj : k ≠ j := by
        rintro rfl
        exact (List.nodup_cons.mp h.nodup).1 (List.mem_append_right _ List.mem_cons_self)
      refine ⟨h.1, ?_⟩
      rw [Function.update_of_ne hkj]
      exact ih h.2

end

end Microv
