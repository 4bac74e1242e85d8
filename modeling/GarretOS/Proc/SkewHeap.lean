import GarretOS.Kernel.Fault
import GarretOS.Tree.Basic

/-!
# Skew heaps in the kernel

The functions of `kernel/lib/skew_heap.h` on the links of the nodes.  The recursion of
`merge_skew_heap` is given the number of calls that it may nest.

* `mergeSkewHeap_spec`, `addSkewHeap_spec`, `delSkewHeap_spec` : on links that contain trees they
  merge these trees, add a node and take one out, and leave the links of other nodes alone.
-/

namespace GarretOS

namespace TreeLinks

variable {ν : Type} [DecidableEq ν]

/-- The assignment `a->left = b`. -/
def setLeft (L : TreeLinks ν) (a : ν) (b : Option ν) : TreeLinks ν :=
  { L with left := Function.update L.left a b }

/-- The assignment `a->right = b`. -/
def setRight (L : TreeLinks ν) (a : ν) (b : Option ν) : TreeLinks ν :=
  { L with right := Function.update L.right a b }

/-- The assignment `a->parent = b`. -/
def setParent (L : TreeLinks ν) (a : ν) (b : Option ν) : TreeLinks ν :=
  { L with parent := Function.update L.parent a b }

/-- `init_skew_heap` -/
def initSkewHeap (L : TreeLinks ν) (a : ν) : TreeLinks ν :=
  ((L.setRight a none).setLeft a none).setParent a none

/-- The end of a call of `merge_skew_heap`: `a` is the root, and the two children are set. -/
def adopt (L : TreeLinks ν) (a : ν) (leftChild rightChild : Option ν) : TreeLinks ν :=
  let L := (L.setLeft a leftChild).setRight a rightChild
  match leftChild with
  | none => L
  | some b => L.setParent b (some a)

/-- `merge_skew_heap` -/
def mergeSkewHeap (comp : ν → ν → ℤ) :
    ℕ → TreeLinks ν → Option ν → Option ν → Res (TreeLinks ν × Option ν)
  | 0, _, _, _ => .error .diverges
  | _ + 1, L, none, right => .ok (L, right)
  | _ + 1, L, some left, none => .ok (L, some left)
  | k + 1, L, some left, some right =>
    if comp left right = -1 then do
      let rightChild := L.left left
      let (L, leftChild) ← mergeSkewHeap comp k L (L.right left) (some right)
      return (L.adopt left leftChild rightChild, some left)
    else do
      let rightChild := L.left right
      let (L, leftChild) ← mergeSkewHeap comp k L (some left) (L.right right)
      return (L.adopt right leftChild rightChild, some right)

/-- `add_skew_heap` -/
def addSkewHeap (comp : ν → ν → ℤ) (k : ℕ) (L : TreeLinks ν) (left : Option ν) (right : ν) :
    Res (TreeLinks ν × Option ν) :=
  mergeSkewHeap comp k (L.initSkewHeap right) left (some right)

/-- `del_skew_heap` -/
def delSkewHeap (comp : ν → ν → ℤ) (k : ℕ) (L : TreeLinks ν) (left : Option ν) (right : ν) :
    Res (TreeLinks ν × Option ν) := do
  let parent := L.parent right
  let (L, replacement) ← mergeSkewHeap comp k L (L.left right) (L.right right)
  let L := match replacement with
    | none => L
    | some r => L.setParent r parent
  match parent with
  | none => return (L, replacement)
  | some p =>
    if L.left p = some right then return (L.setLeft p replacement, left)
    else return (L.setRight p replacement, left)

/-! ### Links -/

variable {L L' : TreeLinks ν} {a b c : ν} {o o' : Option ν}

@[simp] theorem adopt_left : (L.adopt a o o').left c = if c = a then o else L.left c := by
  cases o <;> simp [adopt, setLeft, setRight, setParent, Function.update_apply]

@[simp] theorem adopt_right : (L.adopt a o o').right c = if c = a then o' else L.right c := by
  cases o <;> simp [adopt, setLeft, setRight, setParent, Function.update_apply]

@[simp] theorem adopt_parent :
    (L.adopt a o o').parent c = if o = some c then some a else L.parent c := by
  cases o with
  | none => simp [adopt, setLeft, setRight]
  | some b =>
    simp only [adopt, setLeft, setRight, setParent, Function.update_apply, Option.some.injEq]
    by_cases hc : c = b
    · rw [if_pos hc, if_pos hc.symm]
    · rw [if_neg hc, if_neg (Ne.symm hc)]

/-- The comparison of two roots, as `merge_skew_heap` uses it. -/
def before (comp : ν → ν → ℤ) (a b : ν) : Bool := comp a b = -1

/-- What a call leaves behind: the links contain the tree `t`, the links of nodes outside `xs` are
as before, and so is the parent of the root. -/
structure Merged (L L' : TreeLinks ν) (xs : List ν) (t : Tree ν) : Prop where
  holds : L'.Holds t
  left : ∀ a, a ∉ xs → L'.left a = L.left a
  right : ∀ a, a ∉ xs → L'.right a = L.right a
  parent : ∀ a, a ∉ xs → L'.parent a = L.parent a
  root : ∀ a, t.root = some a → L'.parent a = L.parent a

/-- The end of a call, in terms of trees. -/
theorem Merged.adopt {xs ys : List ν} {t u : Tree ν} (h : Merged L L' xs t)
    (ht : t.nodes.Perm xs) (hu : L.Holds u) (hup : ∀ b, u.root = some b → L.parent b = some a)
    (hn : (a :: (xs ++ u.nodes)).Nodup) (hys : ∀ b, b ∉ ys → b ≠ a ∧ b ∉ xs) :
    Merged L (L'.adopt a t.root u.root) ys (.node t a u) := by
  rw [List.nodup_cons, List.mem_append, not_or, List.nodup_append] at hn
  obtain ⟨⟨hax, hau⟩, hnx, hnu, hdisj⟩ := hn
  have hroot : ∀ b, t.root = some b → b ∈ xs := fun b hb => ht.mem_iff.1 (Tree.root_mem hb)
  have hat : t.root ≠ some a := fun he => hax (hroot a he)
  have hux : ∀ b ∈ u.nodes, b ∉ xs ∧ b ≠ a := fun b hb =>
    ⟨fun hx => hdisj b hx b hb rfl, fun he => hau (he ▸ hb)⟩
  have hnt : t.nodes.Nodup := ht.nodup_iff.2 hnx
  refine ⟨⟨by simp, by simp, fun b (hb : t.root = some b) => ?_, fun b hb => ?_, ?_, ?_⟩,
    fun b hb => ?_, fun b hb => ?_, fun b hb => ?_, fun b hb => ?_⟩
  · rw [adopt_parent, if_pos hb]
  · obtain ⟨hbx, -⟩ := hux b (Tree.root_mem hb)
    rw [adopt_parent, if_neg fun he => hbx (hroot b he), h.parent b hbx]
    exact hup b hb
  · refine h.holds.congr hnt (fun b hb => ?_) fun b _ hne => by rw [adopt_parent, if_neg hne]
    have hba : b ≠ a := fun he => hax (he ▸ ht.mem_iff.1 hb)
    simp [hba]
  · refine hu.congr hnu (fun b hb => ?_) fun b hb _ => ?_
    · obtain ⟨hbx, hba⟩ := hux b hb
      simp [hba, h.left b hbx, h.right b hbx]
    · obtain ⟨hbx, -⟩ := hux b hb
      rw [adopt_parent, if_neg fun he => hbx (hroot b he), h.parent b hbx]
  · obtain ⟨hba, hbx⟩ := hys b hb
    rw [adopt_left, if_neg hba, h.left b hbx]
  · obtain ⟨hba, hbx⟩ := hys b hb
    rw [adopt_right, if_neg hba, h.right b hbx]
  · obtain ⟨-, hbx⟩ := hys b hb
    rw [adopt_parent, if_neg fun he => hbx (hroot b he), h.parent b hbx]
  · obtain rfl := Option.some.inj hb
    rw [adopt_parent, if_neg hat, h.parent _ hax]

/-! ### The functions -/

omit [DecidableEq ν] in
theorem comp_iff {comp : ν → ν → ℤ} {a b : ν} : before comp a b = true ↔ comp a b = -1 := by
  simp [before]

variable (comp : ν → ν → ℤ)

/-- **`merge_skew_heap`** merges two trees. -/
theorem mergeSkewHeap_spec (s t : Tree ν) : ∀ {L : TreeLinks ν}, L.Holds s → L.Holds t →
    (s.nodes ++ t.nodes).Nodup →
    ∃ L', Merged L L' (s.nodes ++ t.nodes) (s.merge (before comp) t) ∧
      Fueled (s.nodes.length + t.nodes.length) (fun k => mergeSkewHeap comp k L s.root t.root)
        (.ok (L', (s.merge (before comp) t).root)) := by
  induction s, t using Tree.merge.induct (before comp) with
  | case1 t =>
    intro L _ ht _
    rw [Tree.merge]
    refine ⟨L, ⟨ht, fun _ _ => rfl, fun _ _ => rfl, fun _ _ => rfl, fun _ _ => rfl⟩, fun k => ?_⟩
    cases k with
    | zero => exact Or.inr ⟨Nat.zero_le _, rfl⟩
    | succ k => exact Or.inl rfl
  | case2 l a r =>
    intro L hs _ _
    rw [Tree.merge]
    refine ⟨L, ⟨hs, fun _ _ => rfl, fun _ _ => rfl, fun _ _ => rfl, fun _ _ => rfl⟩, fun k => ?_⟩
    cases k with
    | zero => exact Or.inr ⟨Nat.zero_le _, rfl⟩
    | succ k => exact Or.inl rfl
  | case3 l a r l' b r' hab ih =>
    intro L hs ht hn
    -- `a` stays on top: its right subtree is merged with `t` and becomes the left one
    obtain ⟨h1, h2, h3, -, h5, h6⟩ := hs
    simp only [Tree.nodes_node, List.cons_append] at hn ih ⊢
    have hperm : (a :: ((r.nodes ++ b :: (l'.nodes ++ r'.nodes)) ++ l.nodes)).Perm
        (a :: (l.nodes ++ r.nodes ++ b :: (l'.nodes ++ r'.nodes))) := by
      refine List.Perm.cons a (List.perm_append_comm.trans ?_)
      rw [List.append_assoc l.nodes]
    have hn' := hperm.nodup_iff.2 hn
    obtain ⟨L₁, hm, hf⟩ := ih h6 ht (List.nodup_append.1 (List.nodup_cons.1 hn').2).1
    rw [Tree.merge, if_pos hab]
    refine ⟨L₁.adopt a _ l.root, hm.adopt (Tree.nodes_merge r (.node l' b r')) h5 h3 hn'
      fun c hc => ?_, fun k => ?_⟩
    · simp only [List.mem_cons, List.mem_append, not_or] at hc ⊢
      tauto
    · cases k with
      | zero => exact Or.inr ⟨Nat.zero_le _, rfl⟩
      | succ k =>
        simp only [mergeSkewHeap, Tree.root_node, if_pos (comp_iff.1 hab), h1, h2]
        rcases hf k with hk | ⟨hk, hk'⟩
        · exact Or.inl (by simp only [Tree.root_node] at hk; rw [hk]; rfl)
        · refine Or.inr ⟨?_, by simp only [Tree.root_node] at hk'; rw [hk']; rfl⟩
          simp only [List.length_cons, List.length_append] at hk ⊢
          omega
  | case4 l a r l' b r' hab ih =>
    intro L hs ht hn
    -- `b` goes on top, and it is the second heap that is taken apart
    obtain ⟨h1, h2, h3, -, h5, h6⟩ := ht
    simp only [Tree.nodes_node, List.cons_append] at hn ih ⊢
    have hperm : (b :: (a :: (l.nodes ++ r.nodes ++ r'.nodes) ++ l'.nodes)).Perm
        (a :: (l.nodes ++ r.nodes ++ b :: (l'.nodes ++ r'.nodes))) := by
      refine List.Perm.trans ?_ (@List.perm_middle _ b (a :: (l.nodes ++ r.nodes)) _).symm
      refine List.Perm.cons b ?_
      simp only [List.cons_append, List.append_assoc]
      exact (((List.perm_append_comm).append_left _).append_left _).cons a
    have hn' := hperm.nodup_iff.2 hn
    obtain ⟨L₁, hm, hf⟩ := ih hs h6 (List.nodup_append.1 (List.nodup_cons.1 hn').2).1
    rw [Tree.merge, if_neg hab]
    refine ⟨L₁.adopt b _ l'.root, hm.adopt (Tree.nodes_merge (.node l a r) r') h5 h3 hn'
      fun c hc => ?_, fun k => ?_⟩
    · simp only [List.mem_cons, List.mem_append, not_or] at hc ⊢
      tauto
    · cases k with
      | zero => exact Or.inr ⟨Nat.zero_le _, rfl⟩
      | succ k =>
        simp only [mergeSkewHeap, Tree.root_node, if_neg fun hc => hab (comp_iff.2 hc), h1, h2]
        rcases hf k with hk | ⟨hk, hk'⟩
        · exact Or.inl (by simp only [Tree.root_node] at hk; rw [hk]; rfl)
        · refine Or.inr ⟨?_, by simp only [Tree.root_node] at hk'; rw [hk']; rfl⟩
          simp only [List.length_cons, List.length_append] at hk ⊢
          omega

/-- The links contain a heap: a tree without repeated nodes whose root has no parent. -/
structure IsHeap (L : TreeLinks ν) (root : Option ν) (t : Tree ν) : Prop where
  holds : L.Holds t
  root_eq : root = t.root
  nodup : t.nodes.Nodup
  parent : ∀ a, t.root = some a → L.parent a = none

/-- **`add_skew_heap`** adds a node that is not in the heap. -/
theorem addSkewHeap_spec {o : Option ν} {t : Tree ν} (h : IsHeap L o t) {a : ν}
    (ha : a ∉ t.nodes) :
    ∃ L', IsHeap L' (t.merge (before comp) (.single a)).root (t.merge (before comp) (.single a)) ∧
      Fueled (t.nodes.length + 1) (fun k => addSkewHeap comp k L o a)
        (.ok (L', (t.merge (before comp) (.single a)).root)) := by
  have hinit : ∀ b, b ≠ a → (L.initSkewHeap a).parent b = L.parent b ∧
      (L.initSkewHeap a).left b = L.left b ∧ (L.initSkewHeap a).right b = L.right b := by
    intro b hb
    simp [initSkewHeap, setLeft, setRight, setParent, hb]
  have hne : ∀ b ∈ t.nodes, b ≠ a := fun b hb he => ha (he ▸ hb)
  have hs : (L.initSkewHeap a).Holds t := h.holds.congr h.nodup
    (fun b hb => (hinit b (hne b hb)).2) fun b hb _ => (hinit b (hne b hb)).1
  have ht : (L.initSkewHeap a).Holds (.single a) := by
    simp [Holds, Tree.single, initSkewHeap, setLeft, setRight, setParent]
  have hn : (t.nodes ++ (Tree.single a).nodes).Nodup := by
    rw [Tree.nodes_single, List.nodup_append]
    exact ⟨h.nodup, List.nodup_singleton a, fun b hb c hc he => ha (List.mem_singleton.1 hc ▸ he ▸ hb)⟩
  obtain ⟨L', hm, hf⟩ := mergeSkewHeap_spec comp t (.single a) hs ht hn
  refine ⟨L', ⟨hm.holds, rfl, (Tree.nodes_merge _ _).nodup_iff.2 hn, fun b hb => ?_⟩, ?_⟩
  · rw [hm.root b hb]
    rcases Tree.root_merge _ _ hb with hb | hb
    · rw [(hinit b (hne b (Tree.root_mem hb))).1, h.parent b hb]
    · obtain rfl := Option.some.inj hb
      simp [initSkewHeap, setParent]
  · rw [h.root_eq]
    exact hf

/-- **`del_skew_heap`** of the root. -/
theorem delSkewHeap_root {l r : Tree ν} {a : ν} (h : IsHeap L (some a) (.node l a r)) :
    ∃ L', IsHeap L' (l.merge (before comp) r).root (l.merge (before comp) r) ∧
      Fueled (l.nodes.length + r.nodes.length) (fun k => delSkewHeap comp k L (some a) a)
        (.ok (L', (l.merge (before comp) r).root)) := by
  obtain ⟨h1, h2, h3, h4, h5, h6⟩ := h.holds
  have hn := (List.nodup_cons.1 h.nodup).2
  have hparent : L.parent a = none := h.parent a rfl
  obtain ⟨L₁, hm, hf⟩ := mergeSkewHeap_spec comp l r h5 h6 hn
  obtain ⟨u, hu⟩ : ∃ u, u = l.merge (before comp) r := ⟨_, rfl⟩
  rw [← hu] at hm hf ⊢
  have hnu : u.nodes.Nodup := hu ▸ (Tree.nodes_merge l r).nodup_iff.2 hn
  have hfuel : ∀ k, delSkewHeap comp k L (some a) a = mergeSkewHeap comp k L l.root r.root >>=
      fun res => .ok (match res.2 with | none => res.1 | some b => res.1.setParent b none, res.2) := by
    intro k
    simp only [delSkewHeap, hparent, h1, h2]
    rfl
  refine ⟨match u.root with | none => L₁ | some b => L₁.setParent b none, ?_, ?_⟩
  · refine ⟨hm.holds.congr hnu (fun b _ => ?_) fun b _ hb => ?_, rfl, hnu, fun b hb => ?_⟩
    · cases u.root <;> exact ⟨rfl, rfl⟩
    · cases hroot : u.root with
      | none => rfl
      | some c =>
        rw [hroot] at hb
        simp [setParent, Function.update_of_ne fun hc : b = c => hb (by rw [hc])]
    · rw [hb]
      simp [setParent]
  · simp only [hfuel]
    exact hf.bind _

/-- The links that `del_skew_heap` leaves behind below the parent `p` of the node. -/
def replace (L : TreeLinks ν) (p a : ν) (replacement : Option ν) : TreeLinks ν :=
  let L := match replacement with
    | none => L
    | some r => L.setParent r (some p)
  if L.left p = some a then L.setLeft p replacement else L.setRight p replacement

/-- The subtree of an inner node is spliced. -/
theorem Merged.splice {p : ν} {l r u : Tree ν} (h : Merged L L' (l.nodes ++ r.nodes) u)
    (hu : u.nodes.Perm (l.nodes ++ r.nodes)) (hn : u.nodes.Nodup) (hp : p ∉ l.nodes ++ r.nodes) :
    Spliced L (L'.replace p a u.root) a p (l.nodes ++ r.nodes) u := by
  have hup : ∀ b ∈ u.nodes, b ≠ p := fun b hb he => hp (he ▸ hu.mem_iff.1 hb)
  obtain ⟨L₁, hL₁⟩ : ∃ L₁, L₁ = match u.root with
    | none => L'
    | some b => L'.setParent b (some p) := ⟨_, rfl⟩
  have hleft : L₁.left = L'.left := by rw [hL₁]; cases u.root <;> rfl
  have hright : L₁.right = L'.right := by rw [hL₁]; cases u.root <;> rfl
  have hparent : ∀ c, u.root ≠ some c → L₁.parent c = L'.parent c := by
    intro c hc
    rw [hL₁]
    cases hroot : u.root with
    | none => rfl
    | some b =>
      rw [hroot] at hc
      simp [setParent, Function.update_of_ne fun he : c = b => hc (by rw [he])]
  have hroot : ∀ b, u.root = some b → L₁.parent b = some p := by
    intro b hb
    rw [hL₁, hb]
    simp [setParent]
  have hholds : L₁.Holds u := h.holds.congr hn (fun b _ => ⟨by rw [hleft], by rw [hright]⟩)
    fun b _ hb => hparent b hb
  have hreplace : L'.replace p a u.root =
      if L.left p = some a then L₁.setLeft p u.root else L₁.setRight p u.root := by
    rw [← h.left p hp, ← hleft, hL₁]
    rfl
  rw [hreplace]
  have hkeep : ∀ c, c ∉ l.nodes ++ r.nodes → L₁.parent c = L.parent c := by
    intro c hc
    rw [hparent c fun he => hc (hu.mem_iff.1 (Tree.root_mem he)), h.parent c hc]
  by_cases hp' : L.left p = some a
  · rw [if_pos hp']
    refine ⟨hholds.congr hn (fun b hb => ?_) fun b hb _ => rfl, hroot, ?_, ?_, fun c hc hcp => ?_,
      fun c hc hcp => ?_, hkeep⟩
    · simp [setLeft, hup b hb]
    · simp [setLeft, hp']
    · rw [if_pos hp', ← h.right p hp, ← hright]
      rfl
    · simp [setLeft, hcp, hleft, h.left c hc]
    · rw [← h.right c hc, ← hright]
      rfl
  · rw [if_neg hp']
    refine ⟨hholds.congr hn (fun b hb => ?_) fun b hb _ => rfl, hroot, ?_, ?_, fun c hc hcp => ?_,
      fun c hc hcp => ?_, hkeep⟩
    · simp [setRight, hup b hb]
    · rw [if_neg hp', ← h.left p hp, ← hleft]
      rfl
    · simp [setRight, hp']
    · rw [← h.left c hc, ← hleft]
      rfl
    · simp [setRight, hcp, hright, h.right c hc]

/-- **`del_skew_heap`** takes a node out of the heap. -/
theorem delSkewHeap_spec {o : Option ν} {t : Tree ν} (h : IsHeap L o t) {a : ν} (ha : a ∈ t.nodes) :
    ∃ L', IsHeap L' (t.remove (before comp) a).root (t.remove (before comp) a) ∧
      Fueled t.nodes.length (fun k => delSkewHeap comp k L o a)
        (.ok (L', (t.remove (before comp) a).root)) := by
  obtain ⟨l, r, hsub, hle⟩ := h.holds.subtree ha
  have hlen := hle.length_le
  rw [Tree.nodes_node, List.length_cons, List.length_append] at hlen
  by_cases hroot : t.root = some a
  · obtain rfl := h.holds.unique hsub hroot
    have ho : o = some a := h.root_eq.trans hroot
    rw [ho] at h ⊢
    obtain ⟨L', hheap, hf⟩ := delSkewHeap_root comp h
    rw [Tree.remove, if_pos rfl]
    exact ⟨L', hheap, hf.mono (by omega)⟩
  · obtain ⟨p, hp, hpar, hchild⟩ := h.holds.parent_mem ha hroot
    have hpn := hsub.parent_notMem hchild
    rw [Tree.nodes_node, List.mem_cons, not_or] at hpn
    obtain ⟨h1, h2, -, -, h5, h6⟩ := id hsub
    have hn := (List.nodup_cons.1 (h.nodup.sublist hle)).2
    obtain ⟨L₁, hm, hf⟩ := mergeSkewHeap_spec comp l r h5 h6 hn
    have hperm : (l.merge (before comp) r).nodes.Perm (l.nodes ++ r.nodes) := Tree.nodes_merge l r
    have hspliced := hm.splice (a := a) hperm (hperm.nodup_iff.2 hn) hpn.2
    refine ⟨_, ⟨h.holds.splice h.nodup ha hroot hsub hpar hspliced, rfl, ?_, fun b hb => ?_⟩, ?_⟩
    · exact (List.nodup_cons.1 ((Tree.nodes_remove h.nodup ha).nodup_iff.2 h.nodup)).2
    · rw [Tree.root_remove hroot] at hb
      rw [hspliced.parent b fun hb' => h.holds.root_notMem ha hroot hsub hb
        (List.mem_cons_of_mem a hb')]
      exact h.parent b hb
    · have hdel : ∀ k, delSkewHeap comp k L o a = mergeSkewHeap comp k L l.root r.root >>=
          fun res => .ok (res.1.replace p a res.2, o) := by
        intro k
        simp only [delSkewHeap, hpar, h1, h2]
        cases mergeSkewHeap comp k L l.root r.root with
        | error e => rfl
        | ok res =>
          simp only [ok_bind, replace]
          split_ifs <;> rfl
      simp only [hdel, Tree.root_remove hroot, ← h.root_eq]
      exact (hf.bind _).mono (by omega)

end TreeLinks

end GarretOS
