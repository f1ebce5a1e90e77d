import LogicSynthesis.LeftistHeap
import Mathlib

/-!
# What a leftist heap hands out

Merging, inserting and taking the top lose no element and make none up. When the order of the
heap is total and transitive, every heap that these operations make is ordered: each node is at
least as great as the nodes below it. So the element that is handed out is a greatest one.

## Main definitions

- `LeftistHeap.toList` — the elements
- `LeftistHeap.Ordered` — no node is less than a node below it

## Main statements

- `mem_insertAll` — what is in a heap after some insertions
- `Ordered.merge`, `Ordered.insertAll` — the operations keep a heap ordered
- `mem_of_pop?`, `Ordered.of_pop?` — the top of an ordered heap is a greatest element of it
-/

namespace LogicSynthesis.LeftistHeap

variable {α : Type} {le : α → α → Bool} {x top : α} {rank : Nat} {a b heap rest : LeftistHeap α}

/-- The elements, those of a node before those below it. -/
def toList : LeftistHeap α → List α
  | leaf => []
  | node _ left top right => top :: (left.toList ++ right.toList)

/-- Every node is at least as great as the nodes below it. -/
def Ordered (le : α → α → Bool) : LeftistHeap α → Prop
  | leaf => True
  | node _ left top right =>
    (∀ x ∈ left.toList ++ right.toList, le x top = true) ∧ left.Ordered le ∧ right.Ordered le

/-! ### Elements -/

theorem mem_toList_node :
    x ∈ (node rank a top b).toList ↔ x = top ∨ x ∈ a.toList ∨ x ∈ b.toList := by
  rw [toList, List.mem_cons, List.mem_append]

theorem mem_toList_join : x ∈ (join top a b).toList ↔ x = top ∨ x ∈ a.toList ∨ x ∈ b.toList := by
  unfold join
  split
  · exact mem_toList_node
  · exact mem_toList_node.trans (or_congr_right or_comm)

/-- A merged heap has the elements of its two parts. -/
theorem mem_toList_merge (a b : LeftistHeap α) :
    x ∈ (merge le a b).toList ↔ x ∈ a.toList ∨ x ∈ b.toList := by
  fun_induction merge le a b with
  | case1 b => exact (or_iff_right List.not_mem_nil).symm
  | case2 a => exact (or_iff_left List.not_mem_nil).symm
  | case3 ra la ta ta' rb lb tb tb' hle ih =>
    simp only [mem_toList_join, ih, mem_toList_node]
    tauto
  | case4 ra la ta ta' rb lb tb tb' hle ih =>
    simp only [mem_toList_join, ih, mem_toList_node]
    tauto

theorem mem_toList_insert {y : α} :
    x ∈ (heap.insert le y).toList ↔ x = y ∨ x ∈ heap.toList := by
  rw [insert, mem_toList_merge, toList, toList, List.append_nil, List.mem_singleton]

/-- After the elements of a list were inserted. -/
theorem mem_insertAll (ys : List α) (heap : LeftistHeap α) :
    x ∈ (ys.foldl (fun heap y => heap.insert le y) heap).toList ↔ x ∈ ys ∨ x ∈ heap.toList := by
  induction ys generalizing heap with
  | nil => exact (or_iff_right List.not_mem_nil).symm
  | cons y ys ih =>
    rw [List.foldl_cons, ih, mem_toList_insert, List.mem_cons]
    tauto

/-- The element that is handed out, and those that remain. -/
theorem mem_of_pop? (h : heap.pop? le = some (top, rest)) :
    x ∈ heap.toList ↔ x = top ∨ x ∈ rest.toList := by
  cases heap with
  | leaf => cases h
  | node rank a y b =>
    cases h
    rw [mem_toList_node, mem_toList_merge]

theorem toList_of_pop?_eq_none (h : heap.pop? le = none) : heap.toList = [] := by
  cases heap with
  | leaf => rfl
  | node rank a y b => cases h

/-! ### Order -/

theorem Ordered.le_top (h : (node rank a top b).Ordered le) {x : α}
    (hx : x ∈ a.toList ∨ x ∈ b.toList) : le x top = true := h.1 x (List.mem_append.mpr hx)

theorem Ordered.join (ha : a.Ordered le) (hb : b.Ordered le)
    (hle : ∀ x, x ∈ a.toList ∨ x ∈ b.toList → le x top = true) : (join top a b).Ordered le := by
  unfold LeftistHeap.join
  split
  · exact ⟨fun x hx => hle x (List.mem_append.mp hx), ha, hb⟩
  · exact ⟨fun x hx => hle x (List.mem_append.mp hx).symm, hb, ha⟩

section

variable (total : ∀ x y, le x y = true ∨ le y x = true)
  (trans : ∀ x y z, le x y = true → le y z = true → le x z = true)

include trans in
/-- What lies below a node is no greater than a node above it. -/
theorem Ordered.le_of_le_top (h : (node rank a top b).Ordered le) {y : α} (hle : le top y = true)
    {x : α} (hx : x ∈ (node rank a top b).toList) : le x y = true := by
  rcases mem_toList_node.mp hx with rfl | hx
  · exact hle
  · exact trans _ _ _ (h.le_top hx) hle

include total trans

theorem Ordered.merge (a b : LeftistHeap α) (ha : a.Ordered le) (hb : b.Ordered le) :
    (merge le a b).Ordered le := by
  -- In each case the greater of the two tops stays on top of everything that is merged.
  fun_induction LeftistHeap.merge le a b with
  | case1 b => exact hb
  | case2 a => exact ha
  | case3 ra la ta ta' rb lb tb tb' hle ih =>
    refine Ordered.join ha.2.1 (ih ha.2.2 hb) ?_
    rintro x (hx | hx)
    · exact ha.le_top (.inl hx)
    · rcases (mem_toList_merge _ _).mp hx with hx | hx
      · exact ha.le_top (.inr hx)
      · exact hb.le_of_le_top trans hle hx
  | case4 ra la ta ta' rb lb tb tb' hle ih =>
    have hle' := (total tb ta).resolve_left hle
    refine Ordered.join hb.2.1 (ih ha hb.2.2) ?_
    rintro x (hx | hx)
    · exact hb.le_top (.inl hx)
    · rcases (mem_toList_merge _ _).mp hx with hx | hx
      · exact ha.le_of_le_top trans hle' hx
      · exact hb.le_top (.inr hx)

theorem Ordered.insert (h : heap.Ordered le) (y : α) : (heap.insert le y).Ordered le :=
  Ordered.merge total trans _ _ ⟨fun _ hx => absurd hx List.not_mem_nil, trivial, trivial⟩ h

theorem Ordered.insertAll (ys : List α) (heap : LeftistHeap α) (h : heap.Ordered le) :
    (ys.foldl (fun heap y => heap.insert le y) heap).Ordered le := by
  induction ys generalizing heap with
  | nil => exact h
  | cons y ys ih => exact ih _ (h.insert total trans y)

/-- An ordered heap hands out an element that no other one exceeds, and remains ordered. -/
theorem Ordered.of_pop? (h : heap.Ordered le) (hpop : heap.pop? le = some (top, rest)) :
    rest.Ordered le ∧ ∀ x ∈ heap.toList, le x top = true := by
  cases heap with
  | leaf => cases hpop
  | node rank a y b =>
    cases hpop
    refine ⟨Ordered.merge total trans a b h.2.1 h.2.2, fun x hx => ?_⟩
    exact h.le_of_le_top trans ((total top top).elim id id) hx

end

end LogicSynthesis.LeftistHeap
