import Mathlib.Data.List.Nodup
import Mathlib.Data.Set.Insert
import Mathlib.Logic.Function.Basic
import Mathlib.Logic.Relation

/-!
# Forests of linked nodes

A tree of any degree is kept in four links of each node: its parent, its first child, and its
neighbours among the children of its parent.  The children are ordered from the youngest to the
oldest one, and a new child becomes the first.

`Kin F young U kids` says that the nodes `U` are linked in this way, and that `kids p` are the
children of `p`.  Its argument `young` is the `younger` link of each first child; it is `none` in
a finished forest, and it may be anything while the children of a node are being moved away.

* `Kin.attach` : a new node becomes the first child of `p`;
* `Kin.detach` : a node without children is taken out;
* `Kin.handOver` : the first child of `p` becomes the first child of `r`;
* `Descends.move` : descent from a root, when parents change.
-/

namespace GarretOS

/-- The four links of every node. -/
@[ext] structure Forest (π : Type*) where
  /-- The `parent` links. -/
  parent : π → Option π
  /-- The links to the first child. -/
  child : π → Option π
  /-- The links to the next younger child of the same parent. -/
  younger : π → Option π
  /-- The links to the next older child of the same parent. -/
  older : π → Option π

namespace Forest

variable {π : Type*} {F F' : Forest π} {U : Set π} {kids : π → List π} {young : π → Option π}
  {c p r : π}

/-- The nodes are linked in this order, and `y` is the `younger` link of the first one. -/
def Siblings (F : Forest π) : Option π → List π → Prop
  | _, [] => True
  | y, c :: cs => F.younger c = y ∧ F.older c = cs.head? ∧ F.Siblings (some c) cs

theorem Siblings.congr {y : Option π} {cs : List π} (h : F.Siblings y cs)
    (hF : ∀ x ∈ cs, F'.younger x = F.younger x ∧ F'.older x = F.older x) : F'.Siblings y cs := by
  induction cs generalizing y with
  | nil => trivial
  | cons x cs ih =>
    obtain ⟨h1, h2, h3⟩ := h
    obtain ⟨hy, ho⟩ := hF x List.mem_cons_self
    exact ⟨hy.trans h1, ho.trans h2, ih h3 fun z hz => hF z (List.mem_cons_of_mem x hz)⟩

/-- The `younger` link of the first node is set to `z`. -/
theorem Siblings.relink {y z : Option π} {cs : List π} (h : F.Siblings y cs) (hn : cs.Nodup)
    (hfirst : ∀ x, cs.head? = some x → F'.younger x = z)
    (hyounger : ∀ x ∈ cs, cs.head? ≠ some x → F'.younger x = F.younger x)
    (holder : ∀ x ∈ cs, F'.older x = F.older x) : F'.Siblings z cs := by
  cases cs with
  | nil => trivial
  | cons x cs =>
    obtain ⟨h1, h2, h3⟩ := h
    have hx := (List.nodup_cons.1 hn).1
    refine ⟨hfirst x rfl, (holder x List.mem_cons_self).trans h2, h3.congr fun w hw => ⟨?_, ?_⟩⟩
    · refine hyounger w (List.mem_cons_of_mem x hw) fun he => hx ?_
      exact Option.some.inj he ▸ hw
    · exact holder w (List.mem_cons_of_mem x hw)

/-- The links of a node between others. -/
theorem Siblings.links {y : Option π} {as bs : List π} (h : F.Siblings y (as ++ c :: bs)) :
    F.older c = bs.head? ∧ F.younger c = as.getLast?.or y := by
  induction as generalizing y with
  | nil => exact ⟨h.2.1, h.1⟩
  | cons a as ih =>
    obtain ⟨ho, hy⟩ := ih h.2.2
    refine ⟨ho, ?_⟩
    rw [hy, List.getLast?_cons]
    cases as.getLast? <;> rfl

/-- Taking a node out of the chain. -/
theorem Siblings.erase [DecidableEq π] {y : Option π} {as bs : List π}
    (h : F.Siblings y (as ++ c :: bs)) (hn : (y.toList ++ (as ++ c :: bs)).Nodup)
    (hyounger : ∀ x ∈ as ++ bs, F'.younger x = if F.older c = some x then F.younger c
      else F.younger x)
    (holder : ∀ x ∈ as ++ bs, F'.older x = if F.younger c = some x then F.older c
      else F.older x) : F'.Siblings y (as ++ bs) := by
  have hcs := h.links
  induction as generalizing y with
  | nil =>
    obtain ⟨h1, h2, h3⟩ := h
    rw [List.nil_append] at hn hyounger holder ⊢
    have hb : bs.Nodup := (List.nodup_cons.1 (List.nodup_append.1 hn).2.1).2
    refine h3.relink hb (fun x hx => ?_) (fun x hx hne => ?_) fun x hx => ?_
    · rw [hyounger x (List.mem_of_head? hx), if_pos (h2.trans hx), h1]
    · rw [hyounger x hx, if_neg (h2 ▸ hne)]
    · rw [holder x hx, if_neg]
      rintro he
      rw [h1] at he
      exact (List.nodup_append.1 hn).2.2 x (by simp [he]) x (List.mem_cons_of_mem c hx) rfl
  | cons a as ih =>
    obtain ⟨h1, h2, h3⟩ := h
    rw [List.cons_append] at hn
    have hn' := (List.nodup_append.1 hn).2.1
    obtain ⟨ha, -⟩ := List.nodup_cons.1 hn'
    simp only [List.mem_append, List.mem_cons, not_or] at ha
    have hmem : ∀ x ∈ as ++ bs, x ∈ a :: as ++ bs :=
      fun x hx => by simpa using Or.inr (by simpa using hx)
    obtain ⟨hco, hcy⟩ := h3.links
    refine ⟨?_, ?_, ih h3 hn' (fun x hx => hyounger x (hmem x hx))
      (fun x hx => holder x (hmem x hx)) ⟨hco, hcy⟩⟩
    · rw [hyounger a (by simp), if_neg, h1]
      rintro he
      rw [hco] at he
      exact ha.2.2 (List.mem_of_head? he)
    · rw [holder a (by simp)]
      cases has : as.getLast? with
      | none =>
        obtain rfl : as = [] := by simpa using has
        rw [if_pos (by simpa using hcy), hco]
        rfl
      | some z =>
        have hz : z ∈ as := List.mem_of_getLast? has
        rw [if_neg, h2]
        · cases as with
          | nil => cases hz
          | cons b as => rfl
        · rintro he
          rw [hcy, has] at he
          exact ha.1 (Option.some.inj he ▸ hz)

/-! ### Families -/

/-- The nodes `U` are linked as a forest in which `kids p` are the children of `p`. -/
structure Kin (F : Forest π) (young : π → Option π) (U : Set π) (kids : π → List π) : Prop where
  child : ∀ p ∈ U, F.child p = (kids p).head?
  siblings : ∀ p ∈ U, F.Siblings (young p) (kids p)
  mem : ∀ p c, c ∈ kids p ↔ c ∈ U ∧ F.parent c = some p
  nodup : ∀ p, (kids p).Nodup
  parent : ∀ c ∈ U, ∀ p, F.parent c = some p → p ∈ U

namespace Kin

theorem kids_unique (h : F.Kin young U kids) {q : π} (hp : c ∈ kids p) (hq : c ∈ kids q) :
    p = q := by
  have h1 := ((h.mem p c).1 hp).2
  rw [((h.mem q c).1 hq).2] at h1
  exact (Option.some.inj h1).symm

/-- A node that is not in the forest has no children. -/
theorem kids_nil (h : F.Kin young U kids) (hc : c ∉ U) : kids c = [] := by
  refine List.eq_nil_iff_forall_not_mem.2 fun x hx => hc ?_
  obtain ⟨hxU, hx⟩ := (h.mem c x).1 hx
  exact h.parent x hxU c hx

/-- A parent has a first child. -/
theorem child_eq_none (h : F.Kin young U kids) (hp : p ∈ U) : F.child p = none ↔ kids p = [] := by
  rw [h.child p hp, List.head?_eq_none_iff]

/-- Only the links of the nodes matter. -/
theorem congr (h : F.Kin young U kids) (hparent : ∀ x ∈ U, F'.parent x = F.parent x)
    (hchild : ∀ x ∈ U, F'.child x = F.child x) (hyounger : ∀ x ∈ U, F'.younger x = F.younger x)
    (holder : ∀ x ∈ U, F'.older x = F.older x) : F'.Kin young U kids := by
  refine ⟨fun p hp => (hchild p hp).trans (h.child p hp), fun p hp => ?_, fun p c => ?_, h.nodup,
    fun c hc p hp => h.parent c hc p ((hparent c hc) ▸ hp)⟩
  · refine (h.siblings p hp).congr fun x hx => ?_
    have hxU := ((h.mem p x).1 hx).1
    exact ⟨hyounger x hxU, holder x hxU⟩
  · rw [h.mem]
    exact and_congr_right fun hc => by rw [hparent c hc]

/-- The link of a first child matters only where there is one. -/
theorem of_young (h : F.Kin young U kids) {young' : π → Option π}
    (hy : ∀ p, kids p ≠ [] → young' p = young p) : F.Kin young' U kids := by
  refine ⟨h.child, fun p hp => ?_, h.mem, h.nodup, h.parent⟩
  by_cases hk : kids p = []
  · rw [hk]
    trivial
  · rw [hy p hk]
    exact h.siblings p hp

end Kin

variable [DecidableEq π]

/-- The node `c` becomes the first child of `p`. -/
def attach (F : Forest π) (c p : π) : Forest π where
  parent x := if x = c then some p else F.parent x
  child x := if x = p then some c else F.child x
  younger x := if F.child p = some x then some c else if x = c then none else F.younger x
  older x := if x = c then F.child p else F.older x

/-- The child `c` of `p` is taken out. -/
def detach (F : Forest π) (c p : π) : Forest π where
  parent := F.parent
  child x := if x = p ∧ F.younger c = none then F.older c else F.child x
  younger x := if F.older c = some x then F.younger c else F.younger x
  older x := if F.younger c = some x then F.older c else F.older x

/-- The first child `c` of `p` leaves `p`, its own links to its neighbours stay. -/
def release (F : Forest π) (c p : π) : Forest π :=
  { F with
    parent := Function.update F.parent c none
    child := Function.update F.child p (F.older c) }

/-- The first child `c` of `p` becomes the first child of `r`. -/
def handOver (F : Forest π) (c p r : π) : Forest π := (F.release c p).attach c r

namespace Kin

/-- **A node without a parent becomes a first child.** -/
theorem attach (h : F.Kin young U kids) (hp : p ∈ U) (hcp : c ≠ p) (horphan : ∀ q, c ∉ kids q)
    (hchild : F.child c = (kids c).head?) (hsib : F.Siblings (young c) (kids c)) :
    (F.attach c p).Kin (Function.update young p none) (insert c U)
      (Function.update kids p (c :: kids p)) := by
  -- `attach` writes the links of `c`, of `p` and of the former first child of `p`
  have hfirst : ∀ q x, x ∈ kids q → F.child p = some x → q = p := fun q x hx he =>
    h.kids_unique hx (List.mem_of_head? (h.child p hp ▸ he))
  have hpc : F.child p ≠ some c := fun he =>
    horphan p (List.mem_of_head? (h.child p hp ▸ he))
  have hne : ∀ q x, x ∈ kids q → x ≠ c := fun q x hx he => horphan q (he ▸ hx)
  refine ⟨fun q hq => ?_, fun q hq => ?_, fun q x => ?_, fun q => ?_, fun x hx q hq => ?_⟩
  · by_cases hqp : q = p
    · simp [Forest.attach, hqp]
    · rw [Function.update_of_ne hqp]
      simp only [Forest.attach, if_neg hqp]
      rcases hq with rfl | hq
      · exact hchild
      · exact h.child q hq
  · by_cases hqp : q = p
    · subst hqp
      rw [Function.update_self, Function.update_self]
      refine ⟨by simp [Forest.attach, hpc], by simp [Forest.attach, h.child q hp], ?_⟩
      refine (h.siblings q hp).relink (h.nodup q) (fun x hx => ?_) (fun x hx hne' => ?_)
        fun x hx => ?_
      · simp only [Forest.attach, h.child q hp, if_pos hx]
      · simp only [Forest.attach, h.child q hp, if_neg hne', if_neg (hne q x hx)]
      · simp only [Forest.attach, if_neg (hne q x hx)]
    · rw [Function.update_of_ne hqp, Function.update_of_ne hqp]
      have hs : F.Siblings (young q) (kids q) := by
        rcases hq with rfl | hq
        · exact hsib
        · exact h.siblings q hq
      refine hs.congr fun x hx => ?_
      have hxp : F.child p ≠ some x := fun he => hqp (hfirst q x hx he)
      simp only [Forest.attach, if_neg hxp, if_neg (hne q x hx), and_self]
  · by_cases hqp : q = p
    · subst hqp
      rw [Function.update_self, List.mem_cons, h.mem]
      by_cases hxc : x = c
      · simp [Forest.attach, hxc]
      · simp [Forest.attach, hxc]
    · rw [Function.update_of_ne hqp]
      by_cases hxc : x = c
      · subst hxc
        simp [Forest.attach, horphan q, Ne.symm hqp]
      · simp [Forest.attach, hxc, h.mem]
  · by_cases hqp : q = p
    · subst hqp
      rw [Function.update_self]
      exact List.nodup_cons.2 ⟨horphan q, h.nodup q⟩
    · rw [Function.update_of_ne hqp]
      exact h.nodup q
  · by_cases hxc : x = c
    · obtain rfl : p = q := by simpa [Forest.attach, hxc] using hq
      exact Or.inr hp
    · refine Or.inr (h.parent x (hx.resolve_left hxc) q ?_)
      simpa [Forest.attach, hxc] using hq

/-- A new node becomes a first child. -/
theorem attach_new (h : F.Kin young U kids) (hp : p ∈ U) (hc : c ∉ U) (hchild : F.child c = none) :
    (F.attach c p).Kin (Function.update young p none) (insert c U)
      (Function.update kids p (c :: kids p)) := by
  have hnil := h.kids_nil hc
  refine h.attach hp (fun he => hc (he ▸ hp)) (fun q hm => hc ((h.mem q c).1 hm).1) ?_ ?_
  · rw [hchild, hnil]
    rfl
  · rw [hnil]
    trivial

/-- The first child leaves. -/
theorem release (h : F.Kin young U kids) {cs : List π} (hk : kids p = c :: cs) :
    (F.release c p).Kin (Function.update young p (some c)) U (Function.update kids p cs) := by
  have hcU : c ∈ U ∧ F.parent c = some p := (h.mem p c).1 (by simp [hk])
  have hp : p ∈ U := h.parent c hcU.1 p hcU.2
  obtain ⟨hyc, hoc, hcs⟩ := hk ▸ h.siblings p hp
  have hn : c ∉ cs ∧ cs.Nodup := List.nodup_cons.1 (hk ▸ h.nodup p)
  refine ⟨fun q hq => ?_, fun q hq => ?_, fun q x => ?_, fun q => ?_, fun x hx q hq => ?_⟩
  · by_cases hqp : q = p
    · subst hqp
      simp [Forest.release, hoc]
    · simp [Forest.release, hqp, h.child q hq]
  · by_cases hqp : q = p
    · subst hqp
      rw [Function.update_self, Function.update_self]
      exact hcs.congr fun x _ => ⟨rfl, rfl⟩
    · rw [Function.update_of_ne hqp, Function.update_of_ne hqp]
      exact (h.siblings q hq).congr fun x _ => ⟨rfl, rfl⟩
  · -- `c` is on no list of children any more: it was on that of `p` only
    by_cases hxc : x = c
    · subst hxc
      have hnot : x ∉ Function.update kids p cs q := by
        by_cases hqp : q = p
        · subst hqp
          rw [Function.update_self]
          exact hn.1
        · rw [Function.update_of_ne hqp]
          exact fun hm => hqp (h.kids_unique hm (by simp [hk]))
      simp [Forest.release, hnot]
    · have hmem := h.mem q x
      by_cases hqp : q = p
      · subst hqp
        rw [hk, List.mem_cons, or_iff_right hxc] at hmem
        rw [Function.update_self, hmem]
        simp [Forest.release, hxc]
      · rw [Function.update_of_ne hqp, hmem]
        simp [Forest.release, hxc]
  · by_cases hqp : q = p
    · subst hqp
      rw [Function.update_self]
      exact hn.2
    · rw [Function.update_of_ne hqp]
      exact h.nodup q
  · by_cases hxc : x = c
    · simp [Forest.release, hxc] at hq
    · refine h.parent x hx q ?_
      simpa [Forest.release, hxc] using hq

/-- **The first child of `p` becomes the first child of `r`.** -/
theorem handOver (h : F.Kin young U kids) {cs : List π} (hk : kids p = c :: cs) (hr : r ∈ U)
    (hrp : r ≠ p) (hcr : c ≠ r) :
    (F.handOver c p r).Kin
      (Function.update (Function.update young p (some c)) r none) U
      (Function.update (Function.update kids p cs) r (c :: kids r)) := by
  have hcU : c ∈ U := ((h.mem p c).1 (by simp [hk])).1
  have h' := h.release hk
  have horphan : ∀ q, c ∉ Function.update kids p cs q := by
    intro q hm
    have := ((h'.mem q c).1 hm).2
    simp [Forest.release] at this
  have hnew := h'.attach hr hcr horphan (h'.child c hcU) (h'.siblings c hcU)
  rw [Set.insert_eq_of_mem hcU, Function.update_of_ne hrp] at hnew
  exact hnew

/-- **A node without children is taken out.** -/
theorem detach (h : F.Kin young U kids) (hpc : F.parent c = some p) (hc : c ∈ U)
    (hy : young p = none) (hnil : kids c = []) :
    (F.detach c p).Kin young (U \ {c}) (Function.update kids p ((kids p).erase c)) := by
  have hcp : c ∈ kids p := (h.mem p c).2 ⟨hc, hpc⟩
  have hp : p ∈ U := h.parent c hc p hpc
  obtain ⟨as, bs, hk⟩ := List.append_of_mem hcp
  have hn := hk ▸ h.nodup p
  obtain ⟨-, hn2, hn3⟩ := List.nodup_append.1 hn
  have hcas : c ∉ as := fun hm => hn3 c hm c List.mem_cons_self rfl
  have hs := hk ▸ h.siblings p hp
  obtain ⟨ho, hyc⟩ := hs.links
  rw [hy, Option.or_none] at hyc
  -- the neighbours of `c` are children of `p`
  have hmem : ∀ x, F.older c = some x ∨ F.younger c = some x → x ∈ kids p := by
    rintro x (hx | hx)
    · rw [ho] at hx
      simp [hk, List.mem_of_head? hx]
    · rw [hyc] at hx
      simp [hk, List.mem_of_getLast? hx]
  have herase : (kids p).erase c = as ++ bs := by
    rw [hk, List.erase_append_right _ hcas, List.erase_cons_head]
  rw [herase]
  refine ⟨fun q hq => ?_, fun q hq => ?_, fun q x => ?_, fun q => ?_, fun x hx q hq => ?_⟩
  · by_cases hqp : q = p
    · subst hqp
      rw [Function.update_self]
      cases has : as with
      | nil =>
        have hyn : F.younger c = none := by simpa [has] using hyc
        simp [Forest.detach, hyn, ho]
      | cons a as' =>
        have hyn : F.younger c ≠ none := by
          rw [hyc, has]
          simp
        simp [Forest.detach, hyn, h.child q hp, hk, has]
    · rw [Function.update_of_ne hqp]
      simp only [Forest.detach, hqp, false_and, if_false]
      exact h.child q hq.1
  · by_cases hqp : q = p
    · subst hqp
      rw [Function.update_self]
      refine hs.erase (by simpa [hy] using hn) (fun x _ => rfl) fun x _ => rfl
    · rw [Function.update_of_ne hqp]
      refine (h.siblings q hq.1).congr fun x hx => ?_
      have hne : x ∉ kids p := fun hm => hqp (h.kids_unique hx hm)
      have h1 : F.older c ≠ some x := fun he => hne (hmem x (Or.inl he))
      have h2 : F.younger c ≠ some x := fun he => hne (hmem x (Or.inr he))
      simp [Forest.detach, h1, h2]
  · by_cases hqp : q = p
    · subst hqp
      rw [Function.update_self, ← herase, (h.nodup q).mem_erase_iff, h.mem]
      simp only [Forest.detach, Set.mem_sdiff, Set.mem_singleton_iff]
      tauto
    · rw [Function.update_of_ne hqp, h.mem]
      simp only [Forest.detach, Set.mem_sdiff, Set.mem_singleton_iff]
      refine ⟨fun hx => ⟨⟨hx.1, ?_⟩, hx.2⟩, fun hx => ⟨hx.1.1, hx.2⟩⟩
      rintro rfl
      rw [hpc] at hx
      exact hqp (Option.some.inj hx.2).symm
  · by_cases hqp : q = p
    · subst hqp
      rw [Function.update_self, ← herase]
      exact (h.nodup q).erase c
    · rw [Function.update_of_ne hqp]
      exact h.nodup q
  · refine ⟨h.parent x hx.1 q hq, ?_⟩
    rintro rfl
    have : x ∈ kids q := (h.mem q x).2 ⟨hx.1, hq⟩
    rw [hnil] at this
    cases this

end Kin

/-! ### Descent -/

/-- Following the `parent` links from `c` one comes to `root`. -/
def Descends (F : Forest π) (root c : π) : Prop :=
  Relation.ReflTransGen (fun a b => F.parent a = some b) c root

omit [DecidableEq π] in
/-- Descent is kept when each node has its old parent or descends from the root in another way. -/
theorem Descends.move {root : π} (hU : ∀ a ∈ U, ∀ b, F.parent a = some b → b ∈ U)
    (hF : ∀ a ∈ U, ∀ b, F.parent a = some b → F'.parent a = some b ∨ F'.Descends root a)
    (h : F.Descends root c) (hc : c ∈ U) : F'.Descends root c := by
  induction h using Relation.ReflTransGen.head_induction_on with
  | refl => exact Relation.ReflTransGen.refl
  | head hab _ ih =>
    rcases hF _ hc _ hab with h | h
    · exact (ih (hU _ hc _ hab)).head h
    · exact h

omit [DecidableEq π] in
/-- A node other than the root that descends from it has a parent. -/
theorem Descends.parent {root : π} (h : F.Descends root c) (hc : c ≠ root) :
    ∃ p, F.parent c = some p ∧ F.Descends root p := by
  cases h using Relation.ReflTransGen.head_induction_on with
  | refl => exact absurd rfl hc
  | head hab h => exact ⟨_, hab, h⟩

omit [DecidableEq π] in
/-- No node that descends from the root is its own parent. -/
theorem Descends.parent_ne {root : π} (h : F.Descends root c) (hroot : F.parent root = none) :
    F.parent c ≠ some c := by
  intro hc
  have hstay : ∀ x, F.Descends x c → x = c := by
    intro x hx
    induction hx with
    | refl => rfl
    | tail _ hab ih =>
      rw [ih, hc] at hab
      exact (Option.some.inj hab).symm
  rw [hstay root h, hc] at hroot
  cases hroot

end Forest

end GarretOS
