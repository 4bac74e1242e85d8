import GarretOS.Proc.SkewHeap
import GarretOS.System.Basic

/-!
# Runs of a skew heap

Any sequence of `add_skew_heap` and `del_skew_heap` calls, from the empty heap on, under a
comparison that puts the nodes in order (`IsComparison`).  The state keeps the list of the nodes
that have been added and not yet deleted; the heap always consists of these (`HeapOk`).
-/

namespace GarretOS

/-- The comparison returns `-1`, `0` or `1`, and is a total preorder on the nodes of `N`. -/
structure IsComparison {ν : Type} (comp : ν → ν → ℤ) (N : Set ν) : Prop where
  values : ∀ a ∈ N, ∀ b ∈ N, comp a b = -1 ∨ comp a b = 0 ∨ comp a b = 1
  swap : ∀ a ∈ N, ∀ b ∈ N, comp b a = -comp a b
  trans : ∀ a ∈ N, ∀ b ∈ N, ∀ c ∈ N, comp a b ≤ 0 → comp b c ≤ 0 → comp a c ≤ 0

namespace IsComparison

variable {ν : Type} {comp : ν → ν → ℤ} {N M : Set ν} {s t : Tree ν}

theorem le_of_before {a b : ν} (hab : TreeLinks.before comp a b = true) : comp a b ≤ 0 := by
  have := TreeLinks.comp_iff.1 hab
  omega

variable (h : IsComparison comp N)

include h

theorem le_iff {a b : ν} (ha : a ∈ N) (hb : b ∈ N) : comp a b ≤ 0 ↔ comp b a ≠ -1 := by
  have h1 := h.values a ha b hb
  have h2 := h.swap a ha b hb
  omega

theorem refl {a : ν} (ha : a ∈ N) : comp a a ≤ 0 := by
  have := h.swap a ha a ha
  omega

theorem le_of_not_before {a b : ν} (ha : a ∈ N) (hb : b ∈ N)
    (hab : TreeLinks.before comp a b = false) : comp b a ≤ 0 := by
  refine (h.le_iff hb ha).2 fun hc => ?_
  rw [TreeLinks.comp_iff.2 hc] at hab
  cases hab

/-- The order that the heap keeps. -/
theorem merge (hs : ∀ a ∈ s.nodes, a ∈ N) (ht : ∀ a ∈ t.nodes, a ∈ N)
    (hos : s.Ordered fun a b => comp a b ≤ 0) (hot : t.Ordered fun a b => comp a b ≤ 0) :
    (s.merge (TreeLinks.before comp) t).Ordered fun a b => comp a b ≤ 0 :=
  hos.merge hot (fun _ _ _ _ hab => le_of_before hab)
    fun a ha b hb hab => h.le_of_not_before (hs a ha) (ht b hb) hab

theorem remove [DecidableEq ν] (ht : ∀ a ∈ t.nodes, a ∈ N) (hn : t.nodes.Nodup)
    (hot : t.Ordered fun a b => comp a b ≤ 0) (a : ν) :
    (t.remove (TreeLinks.before comp) a).Ordered fun a b => comp a b ≤ 0 :=
  hot.remove hn (fun _ _ _ _ hab => le_of_before hab)
    (fun a ha b hb hab => h.le_of_not_before (ht a ha) (ht b hb) hab) (fun a ha => h.refl (ht a ha))
    fun a ha b hb c hc => h.trans a (ht a ha) b (ht b hb) c (ht c hc)

theorem root_le (ht : ∀ a ∈ t.nodes, a ∈ N) (hot : t.Ordered fun a b => comp a b ≤ 0) {a : ν}
    (ha : t.root = some a) : ∀ b ∈ t.nodes, comp a b ≤ 0 :=
  hot.root_le (fun a ha => h.refl (ht a ha))
    (fun a ha b hb c hc => h.trans a (ht a ha) b (ht b hb) c (ht c hc)) ha

end IsComparison

/-- A heap in memory, and the nodes that have been added to it and not yet deleted. -/
structure HeapState (ν : Type) where
  /-- The links of all nodes. -/
  links : TreeLinks ν
  /-- The root. -/
  root : Option ν
  /-- The nodes added and not yet deleted. -/
  held : List ν

/-- The calls that change the heap. -/
inductive HeapOp (ν : Type) where
  /-- `add_skew_heap(root, a, comp_fn)` -/
  | add (a : ν)
  /-- `del_skew_heap(root, a, comp_fn)` -/
  | del (a : ν)

open TreeLinks

variable {ν : Type} [DecidableEq ν] {comp : ν → ν → ℤ} {N : Set ν} {s s' : HeapState ν}

/-- A heap of nodes of `N`.  A node is added only if it is not in the heap, and deleted only if it
is. -/
def skewHeaps (comp : ν → ν → ℤ) (N : Set ν) : System (HeapState ν) (HeapOp ν) where
  init s := s.root = none ∧ s.held = []
  step s l s' := match l with
    | .add a => a ∈ N ∧ a ∉ s.held ∧ s'.held = a :: s.held ∧
        ∃ k, addSkewHeap comp k s.links s.root a = .ok (s'.links, s'.root)
    | .del a => a ∈ s.held ∧ s'.held = s.held.erase a ∧
        ∃ k, delSkewHeap comp k s.links s.root a = .ok (s'.links, s'.root)

/-- The heap is the tree `t`, its nodes are those that are held, and they are in order. -/
structure HeapOk (comp : ν → ν → ℤ) (N : Set ν) (s : HeapState ν) (t : Tree ν) : Prop where
  heap : IsHeap s.links s.root t
  nodes : t.nodes.Perm s.held
  within : ∀ a ∈ t.nodes, a ∈ N
  ordered : t.Ordered fun a b => comp a b ≤ 0

/-- **Adding** a node. -/
theorem HeapOk.add {t : Tree ν} (hc : IsComparison comp N) (h : HeapOk comp N s t) {a : ν}
    (hl : (skewHeaps comp N).step s (.add a) s') :
    HeapOk comp N s' (t.merge (before comp) (.single a)) := by
  obtain ⟨haN, ha, hheld, k, hok⟩ := hl
  have hat : a ∉ t.nodes := fun hm => ha (h.nodes.mem_iff.1 hm)
  obtain ⟨L', hheap, hf⟩ := addSkewHeap_spec comp h.heap hat
  obtain ⟨h1, h2⟩ := Prod.mk.inj (Except.ok.inj (hf.of_ok hok))
  have hsingle : ∀ b ∈ (Tree.single a).nodes, b ∈ N := by
    intro b hb
    rw [Tree.nodes_single, List.mem_singleton] at hb
    exact hb ▸ haN
  refine ⟨h1 ▸ h2 ▸ hheap, ?_, fun b hb => ?_, hc.merge h.within hsingle h.ordered
    (Tree.ordered_single a)⟩
  · rw [hheld]
    exact (Tree.nodes_merge _ _).trans (List.perm_append_comm.trans (h.nodes.cons a))
  · rcases Tree.mem_merge.1 hb with hb | hb
    · exact h.within b hb
    · exact hsingle b hb

/-- **Deleting** a node. -/
theorem HeapOk.del {t : Tree ν} (hc : IsComparison comp N) (h : HeapOk comp N s t) {a : ν}
    (hl : (skewHeaps comp N).step s (.del a) s') :
    HeapOk comp N s' (t.remove (before comp) a) := by
  obtain ⟨ha, hheld, k, hok⟩ := hl
  have hat : a ∈ t.nodes := h.nodes.mem_iff.2 ha
  obtain ⟨L', hheap, hf⟩ := delSkewHeap_spec comp h.heap hat
  obtain ⟨h1, h2⟩ := Prod.mk.inj (Except.ok.inj (hf.of_ok hok))
  refine ⟨h1 ▸ h2 ▸ hheap, ?_, fun b hb => ?_, hc.remove h.within h.heap.nodup h.ordered a⟩
  · rw [hheld]
    have hperm : (a :: (t.remove (before comp) a).nodes).Perm s.held :=
      (Tree.nodes_remove h.heap.nodup hat).trans h.nodes
    exact List.Perm.cons_inv (hperm.trans (List.perm_cons_erase ha))
  · exact h.within b ((Tree.mem_remove h.heap.nodup).1 hb).1

/-- The heap of every state that runs reach. -/
theorem skewHeaps_ok (hc : IsComparison comp N) (h : (skewHeaps comp N).Reachable s) :
    ∃ t, HeapOk comp N s t := by
  refine h.invariant (I := fun s => ∃ t, HeapOk comp N s t) (fun s hs => ?_) ?_
  · obtain ⟨h1, h2⟩ := hs
    refine ⟨.leaf, ⟨trivial, h1, List.nodup_nil, nofun⟩, ?_, nofun, trivial⟩
    rw [h2, Tree.nodes_leaf]
  · rintro s l s' ⟨t, ht⟩ hl
    cases l with
    | add a => exact ⟨_, ht.add hc hl⟩
    | del a => exact ⟨_, ht.del hc hl⟩

/-- **Skew heaps**: after any sequence of calls the links contain a tree of exactly the nodes that
are held; no node compares smaller than its parent, and so none compares smaller than the root;
the parent links are those of the tree; and the next call comes to an end. -/
theorem skew_heap_correct (hc : IsComparison comp N) (h : (skewHeaps comp N).Reachable s) :
    (∃ t, s.links.Holds t ∧ s.root = t.root ∧ t.nodes.Perm s.held ∧ s.held.Nodup) ∧
      (∀ a ∈ s.held, ∀ b, s.links.left a = some b ∨ s.links.right a = some b →
        b ∈ s.held ∧ s.links.parent b = some a ∧ comp b a ≠ -1) ∧
      (∀ a, s.root = some a → s.links.parent a = none ∧ ∀ b ∈ s.held, comp b a ≠ -1) ∧
      (∀ b ∈ s.held, s.root ≠ some b → ∃ a ∈ s.held, s.links.parent b = some a ∧
        (s.links.left a = some b ∨ s.links.right a = some b)) ∧
      (∀ a ∈ N, a ∉ s.held → ∃ n r,
        Fueled n (fun k => addSkewHeap comp k s.links s.root a) (.ok r)) ∧
      ∀ a ∈ s.held, ∃ n r, Fueled n (fun k => delSkewHeap comp k s.links s.root a) (.ok r) := by
  obtain ⟨t, ht⟩ := skewHeaps_ok hc h
  have hmem : ∀ a, a ∈ t.nodes ↔ a ∈ s.held := fun a => ht.nodes.mem_iff
  refine ⟨⟨t, ht.heap.holds, ht.heap.root_eq, ht.nodes, ht.nodes.nodup_iff.1 ht.heap.nodup⟩,
    fun a ha b hb => ?_, fun a ha => ?_, fun b hb hroot => ?_, fun a _ ha => ?_, fun a ha => ?_⟩
  · rw [← hmem] at ha ⊢
    obtain ⟨hbt, hpar, hle⟩ := ht.heap.holds.child ht.ordered ha hb
    exact ⟨hbt, hpar, (hc.le_iff (ht.within a ha) (ht.within b hbt)).1 hle⟩
  · rw [ht.heap.root_eq] at ha
    refine ⟨ht.heap.parent a ha, fun b hb => ?_⟩
    rw [← hmem] at hb
    exact (hc.le_iff (ht.within a (Tree.root_mem ha)) (ht.within b hb)).1
      (hc.root_le ht.within ht.ordered ha b hb)
  · rw [← hmem] at hb
    rw [ht.heap.root_eq] at hroot
    obtain ⟨a, ha, hpar, hchild⟩ := ht.heap.holds.parent_mem hb hroot
    exact ⟨a, (hmem a).1 ha, hpar, hchild⟩
  · rw [← hmem] at ha
    obtain ⟨L', -, hf⟩ := addSkewHeap_spec comp ht.heap ha
    exact ⟨_, _, hf⟩
  · rw [← hmem] at ha
    obtain ⟨L', -, hf⟩ := delSkewHeap_spec comp ht.heap ha
    exact ⟨_, _, hf⟩

/-- The order of the integers. -/
theorem isComparison_sign : IsComparison (fun a b : ℤ => Int.sign (a - b)) Set.univ where
  values a _ b _ := by
    rcases Int.lt_trichotomy (a - b) 0 with h | h | h
    · exact Or.inl (Int.sign_eq_neg_one_of_neg h)
    · exact Or.inr (Or.inl (by rw [h]; rfl))
    · exact Or.inr (Or.inr (Int.sign_eq_one_of_pos h))
  swap a _ b _ := by rw [← Int.sign_neg, Int.neg_sub]
  trans a _ b _ c _ h1 h2 := by
    rw [Int.sign_nonpos_iff] at h1 h2 ⊢
    omega

/-- Three nodes are added, and one that is not the root is deleted. -/
theorem skew_heap_correct_three : ∃ s,
    (skewHeaps (fun a b : ℤ => Int.sign (a - b)) Set.univ).Reachable s ∧ s.held = [3, 1] ∧
      s.root = some 1 ∧ s.links.parent 1 = none ∧ ∀ b ∈ s.held, Int.sign (b - 1) ≠ -1 := by
  obtain ⟨L₁, L₂, L₃, L₄, h₁, h₂, h₃, h₄⟩ : ∃ L₁ L₂ L₃ L₄,
      addSkewHeap (fun a b : ℤ => Int.sign (a - b)) 1
        ⟨fun _ => none, fun _ => none, fun _ => none⟩ none 1 = .ok (L₁, some 1) ∧
      addSkewHeap (fun a b : ℤ => Int.sign (a - b)) 2 L₁ (some 1) 2 = .ok (L₂, some 1) ∧
      addSkewHeap (fun a b : ℤ => Int.sign (a - b)) 2 L₂ (some 1) 3 = .ok (L₃, some 1) ∧
      delSkewHeap (fun a b : ℤ => Int.sign (a - b)) 1 L₃ (some 1) 2 = .ok (L₄, some 1) :=
    ⟨_, _, _, _, rfl, rfl, rfl, rfl⟩
  have hl₁ : (skewHeaps (fun a b : ℤ => Int.sign (a - b)) Set.univ).step
      ⟨⟨fun _ => none, fun _ => none, fun _ => none⟩, none, []⟩ (.add 1) ⟨L₁, some 1, [1]⟩ :=
    ⟨trivial, by decide, rfl, 1, h₁⟩
  have hl₂ : (skewHeaps (fun a b : ℤ => Int.sign (a - b)) Set.univ).step
      ⟨L₁, some 1, [1]⟩ (.add 2) ⟨L₂, some 1, [2, 1]⟩ := ⟨trivial, by simp, rfl, 2, h₂⟩
  have hl₃ : (skewHeaps (fun a b : ℤ => Int.sign (a - b)) Set.univ).step
      ⟨L₂, some 1, [2, 1]⟩ (.add 3) ⟨L₃, some 1, [3, 2, 1]⟩ := ⟨trivial, by simp, rfl, 2, h₃⟩
  have hl₄ : (skewHeaps (fun a b : ℤ => Int.sign (a - b)) Set.univ).step
      ⟨L₃, some 1, [3, 2, 1]⟩ (.del 2) ⟨L₄, some 1, [3, 1]⟩ := ⟨by simp, rfl, 1, h₄⟩
  have hr₀ : (skewHeaps (fun a b : ℤ => Int.sign (a - b)) Set.univ).Reachable
      ⟨⟨fun _ => none, fun _ => none, fun _ => none⟩, none, []⟩ := .start ⟨rfl, rfl⟩
  have hr := (((hr₀.step hl₁).step hl₂).step hl₃).step hl₄
  obtain ⟨-, -, hroot, -⟩ := skew_heap_correct isComparison_sign hr
  exact ⟨_, hr, rfl, rfl, hroot 1 rfl⟩

end GarretOS
