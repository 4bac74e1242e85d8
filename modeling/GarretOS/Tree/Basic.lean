import Mathlib.Data.List.Nodup
import Mathlib.Data.List.Perm.Basic
import Mathlib.Logic.Function.Basic
import Mathlib.Tactic.Common

/-!
# Skew heaps as binary trees

A skew heap is a binary tree; merging walks down the right spines and swaps the children of every
node it passes.  The comparison `lt` decides which of two roots becomes the root.

* `nodes_merge` : merging two trees loses no node and doubles none;
* `Ordered le t` : no node comes before its parent; `Ordered.merge` keeps this, whatever holds of
  the comparison elsewhere;
* `Ordered.root_le` : where `le` is an order on the nodes, the root is a least node;
* `remove` : a node is taken out by merging its two subtrees in its place (`nodes_remove`,
  `Ordered.remove`).

The memory of such trees keeps three links in each node (`TreeLinks`), and `Holds L t` says that
the links `L` contain the tree `t`.  The link `parent` of the root is free.
-/

namespace GarretOS

/-- Binary trees with labelled nodes. -/
inductive Tree (ν : Type*) where
  | leaf
  | node (left : Tree ν) (a : ν) (right : Tree ν)

namespace Tree

variable {ν : Type*}

/-- The label of the root. -/
def root : Tree ν → Option ν
  | leaf => none
  | node _ a _ => some a

/-- The labels, in preorder. -/
def nodes : Tree ν → List ν
  | leaf => []
  | node l a r => a :: (l.nodes ++ r.nodes)

/-- The tree with one node. -/
def single (a : ν) : Tree ν := node leaf a leaf

@[simp] theorem root_leaf : (leaf : Tree ν).root = none := rfl

@[simp] theorem root_node (l : Tree ν) (a : ν) (r : Tree ν) : (node l a r).root = some a := rfl

@[simp] theorem nodes_leaf : (leaf : Tree ν).nodes = [] := rfl

@[simp] theorem nodes_node (l : Tree ν) (a : ν) (r : Tree ν) :
    (node l a r).nodes = a :: (l.nodes ++ r.nodes) := rfl

@[simp] theorem nodes_single (a : ν) : (single a).nodes = [a] := rfl

@[simp] theorem root_single (a : ν) : (single a).root = some a := rfl

theorem root_mem {t : Tree ν} {a : ν} (h : t.root = some a) : a ∈ t.nodes := by
  cases t with
  | leaf => cases h
  | node l b r =>
    obtain rfl := Option.some.inj h
    exact List.mem_cons_self

theorem root_eq_none {t : Tree ν} : t.root = none ↔ t.nodes = [] := by
  cases t <;> simp

/-- Merging two skew heaps. -/
def merge (lt : ν → ν → Bool) : Tree ν → Tree ν → Tree ν
  | leaf, t => t
  | node l a r, leaf => node l a r
  | node l a r, node l' b r' =>
    if lt a b then node (merge lt r (node l' b r')) a l
    else node (merge lt (node l a r) r') b l'
termination_by s t => s.nodes.length + t.nodes.length

variable {lt : ν → ν → Bool} {le : ν → ν → Prop}

/-- **Merging keeps the nodes.** -/
theorem nodes_merge (s t : Tree ν) : (merge lt s t).nodes.Perm (s.nodes ++ t.nodes) := by
  induction s, t using merge.induct lt with
  | case1 t => simp [merge]
  | case2 l a r => simp [merge]
  | case3 l a r l' b r' hab ih =>
    rw [merge, if_pos hab]
    simp only [nodes_node, List.cons_append]
    refine List.Perm.cons a ?_
    rw [List.append_assoc]
    exact (ih.append_right _).trans List.perm_append_comm
  | case4 l a r l' b r' hab ih =>
    rw [merge, if_neg hab]
    simp only [nodes_node]
    refine (List.Perm.cons b ?_).trans List.perm_middle.symm
    refine (ih.append_right _).trans ?_
    simp only [nodes_node]
    rw [List.append_assoc]
    exact List.perm_append_comm.append_left _

theorem mem_merge {s t : Tree ν} {a : ν} :
    a ∈ (merge lt s t).nodes ↔ a ∈ s.nodes ∨ a ∈ t.nodes := by
  rw [(nodes_merge s t).mem_iff, List.mem_append]

/-! ### Heap order -/

/-- No node comes before its parent. -/
def Ordered (le : ν → ν → Prop) : Tree ν → Prop
  | leaf => True
  | node l a r => (∀ b ∈ l.root, le a b) ∧ (∀ b ∈ r.root, le a b) ∧ l.Ordered le ∧ r.Ordered le

theorem ordered_single (a : ν) : (single a).Ordered le := by
  simp [single, Ordered]

theorem ordered_of_forall {t : Tree ν} (h : ∀ a ∈ t.nodes, ∀ b ∈ t.nodes, le a b) :
    t.Ordered le := by
  induction t with
  | leaf => trivial
  | node l a r ihl ihr =>
    refine ⟨fun b hb => ?_, fun b hb => ?_, ihl fun x hx y hy => ?_, ihr fun x hx y hy => ?_⟩
    · exact h a (by simp) b (by simp [root_mem hb])
    · exact h a (by simp) b (by simp [root_mem hb])
    · exact h x (by simp [hx]) y (by simp [hy])
    · exact h x (by simp [hx]) y (by simp [hy])

theorem Ordered.mono {le' : ν → ν → Prop} {t : Tree ν} (h : t.Ordered le)
    (hle : ∀ a ∈ t.nodes, ∀ b ∈ t.nodes, le a b → le' a b) : t.Ordered le' := by
  induction t with
  | leaf => trivial
  | node l a r ihl ihr =>
    obtain ⟨h1, h2, h3, h4⟩ := h
    refine ⟨fun b hb => ?_, fun b hb => ?_, ihl h3 fun x hx y hy => ?_, ihr h4 fun x hx y hy => ?_⟩
    · exact hle a (by simp) b (by simp [root_mem hb]) (h1 b hb)
    · exact hle a (by simp) b (by simp [root_mem hb]) (h2 b hb)
    · exact hle x (by simp [hx]) y (by simp [hy])
    · exact hle x (by simp [hx]) y (by simp [hy])

/-- The root of a merge is one of the two roots. -/
theorem root_merge (s t : Tree ν) {b : ν} (h : (merge lt s t).root = some b) :
    s.root = some b ∨ t.root = some b := by
  induction s, t using merge.induct lt with
  | case1 t =>
    rw [merge] at h
    exact Or.inr h
  | case2 l a r =>
    rw [merge] at h
    exact Or.inl h
  | case3 l a r l' b r' hab ih =>
    rw [merge, if_pos hab] at h
    exact Or.inl h
  | case4 l a r l' b r' hab ih =>
    rw [merge, if_neg hab] at h
    exact Or.inr h

/-- **Merging keeps the heap order**, when the comparison is right about the nodes. -/
theorem Ordered.merge {s t : Tree ν} (hs : s.Ordered le) (ht : t.Ordered le)
    (hlt : ∀ a ∈ s.nodes, ∀ b ∈ t.nodes, lt a b = true → le a b)
    (hge : ∀ a ∈ s.nodes, ∀ b ∈ t.nodes, lt a b = false → le b a) :
    (merge lt s t).Ordered le := by
  induction s, t using merge.induct lt with
  | case1 t =>
    rw [Tree.merge]
    exact ht
  | case2 l a r =>
    rw [Tree.merge]
    exact hs
  | case3 l a r l' b r' hab ih =>
    rw [Tree.merge, if_pos hab]
    obtain ⟨h1, h2, h3, h4⟩ := hs
    refine ⟨fun c hc => ?_, h1, ih h4 ht (fun x hx => hlt x (by simp [hx]))
      (fun x hx => hge x (by simp [hx])), h3⟩
    rcases root_merge _ _ hc with hc | hc
    · exact h2 c hc
    · obtain rfl := Option.some.inj hc
      exact hlt a (by simp) _ (by simp) hab
  | case4 l a r l' b r' hab ih =>
    rw [Tree.merge, if_neg hab]
    obtain ⟨h1, h2, h3, h4⟩ := ht
    refine ⟨fun c hc => ?_, h1, ih hs h4 (fun x hx y hy => hlt x hx y (by simp [hy]))
      (fun x hx y hy => hge x hx y (by simp [hy])), h3⟩
    rcases root_merge _ _ hc with hc | hc
    · obtain rfl := Option.some.inj hc
      exact hge _ (by simp) b (by simp) (by simpa using hab)
    · exact h2 c hc

/-- **The root is a least node**, when `le` is reflexive and transitive on the nodes. -/
theorem Ordered.root_le {t : Tree ν} (h : t.Ordered le) (hrefl : ∀ a ∈ t.nodes, le a a)
    (htrans : ∀ a ∈ t.nodes, ∀ b ∈ t.nodes, ∀ c ∈ t.nodes, le a b → le b c → le a c) {a : ν}
    (ha : t.root = some a) : ∀ b ∈ t.nodes, le a b := by
  induction t generalizing a with
  | leaf => cases ha
  | node l x r ihl ihr =>
    obtain rfl := Option.some.inj ha
    obtain ⟨h1, h2, h3, h4⟩ := h
    -- below a child the least node is the root of the child
    have hchild : ∀ s : Tree ν, (∀ y ∈ s.nodes, y ∈ (node l x r).nodes) → (∀ b ∈ s.root, le x b) →
        (∀ y, s.root = some y → ∀ b ∈ s.nodes, le y b) → ∀ b ∈ s.nodes, le x b := by
      intro s hsub hroot hmin b hb
      cases hs : s.root with
      | none =>
        rw [root_eq_none] at hs
        rw [hs] at hb
        cases hb
      | some y =>
        exact htrans x (by simp) y (hsub y (root_mem hs)) b (hsub b hb) (hroot y hs) (hmin y hs b hb)
    intro b hb
    simp only [nodes_node, List.mem_cons, List.mem_append] at hb
    rcases hb with rfl | hb | hb
    · exact hrefl b (by simp)
    · refine hchild l (fun y hy => by simp [hy]) h1 (fun y hy => ?_) b hb
      exact ihl h3 (fun c hc => hrefl c (by simp [hc])) (fun c hc d hd e he =>
        htrans c (by simp [hc]) d (by simp [hd]) e (by simp [he])) hy
    · refine hchild r (fun y hy => by simp [hy]) h2 (fun y hy => ?_) b hb
      exact ihr h4 (fun c hc => hrefl c (by simp [hc])) (fun c hc d hd e he =>
        htrans c (by simp [hc]) d (by simp [hd]) e (by simp [he])) hy

/-! ### Taking a node out -/

section Remove

variable [DecidableEq ν]

/-- The tree without the node `a`: the subtrees of `a` are merged in its place. -/
def remove (lt : ν → ν → Bool) (a : ν) : Tree ν → Tree ν
  | leaf => leaf
  | node l b r => if b = a then merge lt l r else node (remove lt a l) b (remove lt a r)

variable {a : ν} {t : Tree ν}

theorem remove_of_notMem (ha : a ∉ t.nodes) : remove lt a t = t := by
  induction t with
  | leaf => rfl
  | node l b r ihl ihr =>
    rw [nodes_node, List.mem_cons, List.mem_append, not_or, not_or] at ha
    obtain ⟨hab, hl, hr⟩ := ha
    rw [remove, if_neg (Ne.symm hab), ihl hl, ihr hr]

theorem root_remove (h : t.root ≠ some a) : (remove lt a t).root = t.root := by
  cases t with
  | leaf => rfl
  | node l b r =>
    have hba : b ≠ a := fun he => h (by rw [root_node, he])
    rw [remove, if_neg hba, root_node, root_node]

/-- **The other nodes stay.** -/
theorem nodes_remove (hn : t.nodes.Nodup) (ha : a ∈ t.nodes) :
    (a :: (remove lt a t).nodes).Perm t.nodes := by
  induction t with
  | leaf => cases ha
  | node l b r ihl ihr =>
    rw [nodes_node, List.nodup_cons, List.nodup_append] at hn
    obtain ⟨-, hl, hr, hdisj⟩ := hn
    by_cases hba : b = a
    · rw [remove, if_pos hba, nodes_node, hba]
      exact (nodes_merge l r).cons a
    · rw [remove, if_neg hba, nodes_node, nodes_node]
      rw [nodes_node, List.mem_cons, List.mem_append] at ha
      rcases ha with rfl | hal | har
      · exact absurd rfl hba
      · have har : a ∉ r.nodes := fun har => hdisj a hal a har rfl
        rw [remove_of_notMem har]
        exact (List.Perm.swap b a _).trans (((ihl hl hal).append_right r.nodes).cons b)
      · have hal : a ∉ l.nodes := fun hal => hdisj a hal a har rfl
        rw [remove_of_notMem hal]
        refine (List.Perm.swap b a _).trans (List.Perm.cons b ?_)
        exact List.perm_middle.symm.trans ((ihr hr har).append_left l.nodes)

theorem mem_remove (hn : t.nodes.Nodup) {b : ν} :
    b ∈ (remove lt a t).nodes ↔ b ∈ t.nodes ∧ b ≠ a := by
  by_cases ha : a ∈ t.nodes
  · have hperm : (a :: (remove lt a t).nodes).Perm t.nodes := nodes_remove hn ha
    have hna := (List.nodup_cons.1 (hperm.nodup_iff.2 hn)).1
    rw [← hperm.mem_iff, List.mem_cons]
    refine ⟨fun hb => ⟨Or.inr hb, fun he => hna (he ▸ hb)⟩, fun hb => hb.1.resolve_left hb.2⟩
  · rw [remove_of_notMem ha]
    exact ⟨fun hb => ⟨hb, fun he => ha (he ▸ hb)⟩, fun hb => hb.1⟩

/-- **Taking a node out keeps the heap order**, when the comparison is right about the nodes and
`le` is an order on them. -/
theorem Ordered.remove (h : t.Ordered le) (hn : t.nodes.Nodup)
    (hlt : ∀ a ∈ t.nodes, ∀ b ∈ t.nodes, lt a b = true → le a b)
    (hge : ∀ a ∈ t.nodes, ∀ b ∈ t.nodes, lt a b = false → le b a)
    (hrefl : ∀ a ∈ t.nodes, le a a)
    (htrans : ∀ a ∈ t.nodes, ∀ b ∈ t.nodes, ∀ c ∈ t.nodes, le a b → le b c → le a c) :
    (remove lt a t).Ordered le := by
  induction t with
  | leaf => trivial
  | node l b r ihl ihr =>
    have hleast := h.root_le hrefl htrans (a := b) rfl
    obtain ⟨-, -, h3, h4⟩ := h
    have hl : ∀ x ∈ l.nodes, x ∈ (node l b r).nodes := fun x hx => by simp [hx]
    have hr : ∀ x ∈ r.nodes, x ∈ (node l b r).nodes := fun x hx => by simp [hx]
    rw [nodes_node, List.nodup_cons, List.nodup_append] at hn
    obtain ⟨-, hnl, hnr, -⟩ := hn
    by_cases hba : b = a
    · rw [Tree.remove, if_pos hba]
      exact h3.merge h4 (fun x hx y hy => hlt x (hl x hx) y (hr y hy))
        fun x hx y hy => hge x (hl x hx) y (hr y hy)
    · rw [Tree.remove, if_neg hba]
      refine ⟨fun x hx => ?_, fun x hx => ?_, ?_, ?_⟩
      · exact hleast x (hl x ((mem_remove hnl).1 (root_mem hx)).1)
      · exact hleast x (hr x ((mem_remove hnr).1 (root_mem hx)).1)
      · exact ihl h3 hnl (fun x hx y hy => hlt x (hl x hx) y (hl y hy))
          (fun x hx y hy => hge x (hl x hx) y (hl y hy)) (fun x hx => hrefl x (hl x hx))
          fun x hx y hy z hz => htrans x (hl x hx) y (hl y hy) z (hl z hz)
      · exact ihr h4 hnr (fun x hx y hy => hlt x (hr x hx) y (hr y hy))
          (fun x hx y hy => hge x (hr x hx) y (hr y hy)) (fun x hx => hrefl x (hr x hx))
          fun x hx y hy z hz => htrans x (hr x hx) y (hr y hy) z (hr z hz)

end Remove

end Tree

/-! ### Trees in memory -/

/-- The three links of every node. -/
structure TreeLinks (ν : Type*) where
  /-- The `parent` fields. -/
  parent : ν → Option ν
  /-- The `left` fields. -/
  left : ν → Option ν
  /-- The `right` fields. -/
  right : ν → Option ν

namespace TreeLinks

variable {ν : Type*} {L L' : TreeLinks ν}

/-- The links contain the tree. -/
def Holds (L : TreeLinks ν) : Tree ν → Prop
  | .leaf => True
  | .node l a r => L.left a = l.root ∧ L.right a = r.root ∧ (∀ b ∈ l.root, L.parent b = some a) ∧
      (∀ b ∈ r.root, L.parent b = some a) ∧ L.Holds l ∧ L.Holds r

/-- Only the links of the nodes matter, and not the parent of the root. -/
theorem Holds.congr {t : Tree ν} (h : L.Holds t) (hn : t.nodes.Nodup)
    (hlr : ∀ a ∈ t.nodes, L'.left a = L.left a ∧ L'.right a = L.right a)
    (hp : ∀ a ∈ t.nodes, t.root ≠ some a → L'.parent a = L.parent a) : L'.Holds t := by
  induction t with
  | leaf => trivial
  | node l a r ihl ihr =>
    obtain ⟨h1, h2, h3, h4, h5, h6⟩ := h
    obtain ⟨hal, har⟩ := hlr a (by simp)
    rw [Tree.nodes_node, List.nodup_cons, List.mem_append, not_or, List.nodup_append] at hn
    obtain ⟨⟨hnl, hnr⟩, hl, hr, -⟩ := hn
    have hpl : ∀ b ∈ l.nodes, L'.parent b = L.parent b := by
      intro b hb
      refine hp b (by simp [hb]) fun he => hnl ?_
      rwa [Option.some.inj he]
    have hpr : ∀ b ∈ r.nodes, L'.parent b = L.parent b := by
      intro b hb
      refine hp b (by simp [hb]) fun he => hnr ?_
      rwa [Option.some.inj he]
    refine ⟨hal.trans h1, har.trans h2, fun b hb => ?_, fun b hb => ?_, ?_, ?_⟩
    · rw [hpl b (Tree.root_mem hb), h3 b hb]
    · rw [hpr b (Tree.root_mem hb), h4 b hb]
    · exact ihl h5 hl (fun b hb => hlr b (by simp [hb])) fun b hb _ => hpl b hb
    · exact ihr h6 hr (fun b hb => hlr b (by simp [hb])) fun b hb _ => hpr b hb

/-- The tree is determined by the links and its root. -/
theorem Holds.unique {s t : Tree ν} (hs : L.Holds s) (ht : L.Holds t) (h : s.root = t.root) :
    s = t := by
  induction s generalizing t with
  | leaf =>
    cases t with
    | leaf => rfl
    | node l a r => cases h
  | node l a r ihl ihr =>
    cases t with
    | leaf => cases h
    | node l' b r' =>
      obtain rfl := Option.some.inj h
      obtain ⟨h1, h2, -, -, h3, h4⟩ := hs
      obtain ⟨h1', h2', -, -, h3', h4'⟩ := ht
      rw [ihl h3 h3' (h1.symm.trans h1'), ihr h4 h4' (h2.symm.trans h2')]

/-! ### Subtrees -/

variable {s t l r u : Tree ν} {a p : ν}

/-- Every node has a subtree. -/
theorem Holds.subtree (h : L.Holds t) (ha : a ∈ t.nodes) :
    ∃ l r, L.Holds (.node l a r) ∧ (Tree.node l a r).nodes.Sublist t.nodes := by
  induction t with
  | leaf => cases ha
  | node tl x tr ihl ihr =>
    obtain ⟨-, -, -, -, h5, h6⟩ := id h
    rw [Tree.nodes_node, List.mem_cons, List.mem_append] at ha
    rcases ha with rfl | ha | ha
    · exact ⟨tl, tr, h, List.Sublist.refl _⟩
    · obtain ⟨l, r, hsub, hle⟩ := ihl h5 ha
      exact ⟨l, r, hsub, (hle.trans (List.sublist_append_left _ _)).cons x⟩
    · obtain ⟨l, r, hsub, hle⟩ := ihr h6 ha
      exact ⟨l, r, hsub, (hle.trans (List.sublist_append_right _ _)).cons x⟩

/-- The subtree of a node is unique. -/
theorem Holds.sublist (h : L.Holds t) (ha : a ∈ t.nodes) (hsub : L.Holds (.node l a r)) :
    (Tree.node l a r).nodes.Sublist t.nodes := by
  obtain ⟨l', r', hsub', hle⟩ := h.subtree ha
  rwa [hsub.unique hsub' rfl]

/-- A node that is not the root has a parent. -/
theorem Holds.parent_mem (h : L.Holds t) (ha : a ∈ t.nodes) (hroot : t.root ≠ some a) :
    ∃ p ∈ t.nodes, L.parent a = some p ∧ (L.left p = some a ∨ L.right p = some a) := by
  induction t with
  | leaf => cases ha
  | node tl x tr ihl ihr =>
    obtain ⟨h1, h2, h3, h4, h5, h6⟩ := h
    rw [Tree.nodes_node, List.mem_cons, List.mem_append] at ha
    rcases ha with rfl | ha | ha
    · exact absurd rfl hroot
    · by_cases hl : tl.root = some a
      · exact ⟨x, by simp, h3 a hl, Or.inl (h1.trans hl)⟩
      · obtain ⟨p, hp, hpar⟩ := ihl h5 ha hl
        exact ⟨p, by simp [hp], hpar⟩
    · by_cases hr : tr.root = some a
      · exact ⟨x, by simp, h4 a hr, Or.inr (h2.trans hr)⟩
      · obtain ⟨p, hp, hpar⟩ := ihr h6 ha hr
        exact ⟨p, by simp [hp], hpar⟩

/-- The children of a node are in the tree, name it as their parent, and do not come before it. -/
theorem Holds.child {le : ν → ν → Prop} (h : L.Holds t) (ho : t.Ordered le) (ha : a ∈ t.nodes)
    {b : ν} (hb : L.left a = some b ∨ L.right a = some b) :
    b ∈ t.nodes ∧ L.parent b = some a ∧ le a b := by
  induction t with
  | leaf => cases ha
  | node tl x tr ihl ihr =>
    obtain ⟨h1, h2, h3, h4, h5, h6⟩ := h
    obtain ⟨ho1, ho2, ho3, ho4⟩ := ho
    rw [Tree.nodes_node, List.mem_cons, List.mem_append] at ha
    rcases ha with rfl | ha | ha
    · rcases hb with hb | hb
      · rw [h1] at hb
        exact ⟨by simp [Tree.root_mem hb], h3 b hb, ho1 b hb⟩
      · rw [h2] at hb
        exact ⟨by simp [Tree.root_mem hb], h4 b hb, ho2 b hb⟩
    · obtain ⟨hm, hp, hle⟩ := ihl h5 ho3 ha
      exact ⟨by simp [hm], hp, hle⟩
    · obtain ⟨hm, hp, hle⟩ := ihr h6 ho4 ha
      exact ⟨by simp [hm], hp, hle⟩

/-- The root of a tree is in no other subtree. -/
theorem Holds.root_notMem (h : L.Holds t) (ha : a ∈ t.nodes) (hroot : t.root ≠ some a)
    (hsub : L.Holds (.node l a r)) {b : ν} (hb : t.root = some b) :
    b ∉ (Tree.node l a r).nodes := by
  intro hmem
  have hle := h.sublist ha hsub
  obtain ⟨l', r', hsub', hle'⟩ := hsub.subtree hmem
  -- the subtree of `b` is the whole tree, so the two have the same nodes
  rw [← h.unique hsub' hb] at hle'
  have heq := hle.eq_of_length_le hle'.length_le
  cases t with
  | leaf => cases ha
  | node tl x tr =>
    rw [Tree.nodes_node, Tree.nodes_node, List.cons.injEq] at heq
    exact hroot (congrArg some heq.1.symm)

/-- The parent of a node is not below it. -/
theorem Holds.parent_notMem (h : L.Holds (.node l a r))
    (hp : L.left p = some a ∨ L.right p = some a) : p ∉ (Tree.node l a r).nodes := by
  intro hmem
  obtain ⟨l', r', hsub, hle⟩ := h.subtree hmem
  obtain ⟨h1, h2, -, -, h5, h6⟩ := hsub
  have hlen := hle.length_le
  rw [Tree.nodes_node l' p r', List.length_cons, List.length_append] at hlen
  rcases hp with hp | hp
  · rw [h.unique h5 (hp.symm.trans h1)] at hlen
    omega
  · rw [h.unique h6 (hp.symm.trans h2)] at hlen
    omega

variable [DecidableEq ν] {lt : ν → ν → Bool}

/-- The links `L'` have the tree `u`, whose nodes are among `xs`, where `L` has the subtree of `a`
below `p`. -/
structure Spliced (L L' : TreeLinks ν) (a p : ν) (xs : List ν) (u : Tree ν) : Prop where
  holds : L'.Holds u
  root : ∀ b, u.root = some b → L'.parent b = some p
  left : L'.left p = if L.left p = some a then u.root else L.left p
  right : L'.right p = if L.left p = some a then L.right p else u.root
  keepsLeft : ∀ c, c ∉ xs → c ≠ p → L'.left c = L.left c
  keepsRight : ∀ c, c ∉ xs → c ≠ p → L'.right c = L.right c
  parent : ∀ c, c ∉ xs → L'.parent c = L.parent c

/-- A tree that has neither `a` nor the nodes below it, nor its parent, stays. -/
theorem Spliced.keeps (h : Spliced L L' a p (l.nodes ++ r.nodes) u) (hs : L.Holds s)
    (hn : s.nodes.Nodup) (hx : ∀ b ∈ s.nodes, b ∉ l.nodes ++ r.nodes ∧ b ≠ p) : L'.Holds s :=
  hs.congr hn (fun b hb => ⟨h.keepsLeft b (hx b hb).1 (hx b hb).2,
    h.keepsRight b (hx b hb).1 (hx b hb).2⟩) fun b hb _ => h.parent b (hx b hb).1

/-- **Splicing** takes the node out of every tree that it is in. -/
theorem Holds.splice (hs : L.Holds s) (hn : s.nodes.Nodup) (ha : a ∈ s.nodes)
    (hroot : s.root ≠ some a) (hsub : L.Holds (.node l a r)) (hp : L.parent a = some p)
    (h : Spliced L L' a p (l.nodes ++ r.nodes) (l.merge lt r)) : L'.Holds (s.remove lt a) := by
  induction s with
  | leaf => cases ha
  | node sl x sr ihl ihr =>
    have hbelow := hs.sublist ha hsub
    have hx : x ∉ l.nodes ++ r.nodes := fun hx =>
      hs.root_notMem ha hroot hsub rfl (List.mem_cons_of_mem a hx)
    have hxa : x ≠ a := fun he => hroot (by rw [he, Tree.root_node])
    obtain ⟨h1, h2, h3, h4, h5, h6⟩ := hs
    rw [Tree.nodes_node, List.nodup_cons, List.mem_append, not_or, List.nodup_append] at hn
    obtain ⟨⟨hxl, hxr⟩, hnl, hnr, hdisj⟩ := hn
    rw [Tree.nodes_node, List.mem_cons, List.mem_append] at ha
    rw [Tree.remove, if_neg hxa]
    rcases ha with rfl | ha | ha
    · exact absurd rfl hxa
    · -- the node is in the left tree, and the right one stays
      have har : a ∉ sr.nodes := fun har => hdisj a ha a har rfl
      have hin := (h5.sublist ha hsub).subset
      have hstays : (∀ b ∈ sr.nodes, b ∉ l.nodes ++ r.nodes) := fun b hb hb' =>
        hdisj b (hin (List.mem_cons_of_mem a hb')) b hb rfl
      have hparent : ∀ b ∈ sr.root, L'.parent b = some x := fun b hb =>
        (h.parent b (hstays b (Tree.root_mem hb))).trans (h4 b hb)
      rw [Tree.remove_of_notMem har]
      by_cases hl : sl.root = some a
      · obtain rfl : p = x := Option.some.inj (hp.symm.trans (h3 a hl))
        obtain rfl := h5.unique hsub hl
        have hleft : L.left p = some a := h1
        rw [Tree.remove, if_pos rfl]
        refine ⟨?_, ?_, h.root, hparent, h.holds, h.keeps h6 hnr fun b hb =>
          ⟨hstays b hb, fun he => hxr (he ▸ hb)⟩⟩
        · rw [h.left, if_pos hleft]
        · rw [h.right, if_pos hleft, h2]
      · obtain ⟨p', hp', hpar, -⟩ := h5.parent_mem ha hl
        obtain rfl := Option.some.inj (hp.symm.trans hpar)
        have hxp : x ≠ p := fun he => hxl (he ▸ hp')
        refine ⟨?_, ?_, fun b hb => ?_, hparent, ihl h5 hnl ha hl, h.keeps h6 hnr fun b hb =>
          ⟨hstays b hb, fun he => hdisj p hp' b hb he.symm⟩⟩
        · rw [h.keepsLeft x hx hxp, h1, Tree.root_remove hl]
        · rw [h.keepsRight x hx hxp, h2]
        · rw [Tree.root_remove hl] at hb
          rw [h.parent b fun hb' => h5.root_notMem ha hl hsub hb (List.mem_cons_of_mem a hb')]
          exact h3 b hb
    · have hal : a ∉ sl.nodes := fun hal => hdisj a hal a ha rfl
      have hin := (h6.sublist ha hsub).subset
      have hstays : (∀ b ∈ sl.nodes, b ∉ l.nodes ++ r.nodes) := fun b hb hb' =>
        hdisj b hb b (hin (List.mem_cons_of_mem a hb')) rfl
      have hparent : ∀ b ∈ sl.root, L'.parent b = some x := fun b hb =>
        (h.parent b (hstays b (Tree.root_mem hb))).trans (h3 b hb)
      rw [Tree.remove_of_notMem hal]
      by_cases hr : sr.root = some a
      · obtain rfl : p = x := Option.some.inj (hp.symm.trans (h4 a hr))
        obtain rfl := h6.unique hsub hr
        have hleft : L.left p ≠ some a := fun he => hal (Tree.root_mem (h1.symm.trans he))
        rw [Tree.remove, if_pos rfl]
        refine ⟨?_, ?_, hparent, h.root, h.keeps h5 hnl fun b hb =>
          ⟨hstays b hb, fun he => hxl (he ▸ hb)⟩, h.holds⟩
        · rw [h.left, if_neg hleft, h1]
        · rw [h.right, if_neg hleft]
      · obtain ⟨p', hp', hpar, -⟩ := h6.parent_mem ha hr
        obtain rfl := Option.some.inj (hp.symm.trans hpar)
        have hxp : x ≠ p := fun he => hxr (he ▸ hp')
        refine ⟨?_, ?_, hparent, fun b hb => ?_, h.keeps h5 hnl fun b hb =>
          ⟨hstays b hb, fun he => hdisj b hb p hp' he⟩, ihr h6 hnr ha hr⟩
        · rw [h.keepsLeft x hx hxp, h1]
        · rw [h.keepsRight x hx hxp, h2, Tree.root_remove hr]
        · rw [Tree.root_remove hr] at hb
          rw [h.parent b fun hb' => h6.root_notMem ha hr hsub hb (List.mem_cons_of_mem a hb')]
          exact h4 b hb

end TreeLinks

end GarretOS
