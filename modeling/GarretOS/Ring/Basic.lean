import Mathlib.Data.List.Chain
import Mathlib.Data.List.Nodup
import Mathlib.Logic.Function.Basic

/-!
# Intrusive circular lists

An intrusive doubly linked list keeps the two link fields inside the objects it links; the list
itself is one more node, the *list head*.  The memory of such lists is a pair of functions
`prev` and `next` on the nodes (`Links`), and the operations rewrite these functions in place.

`Ring L h xs` says that following `next` from the head `h` visits the nodes `xs` in this order
and comes back to `h`, that `prev` is the way back, and that no node occurs twice.  The
operations are then operations on the list `xs`:

* `Ring.init` : a node linked to itself is the empty ring;
* `Ring.insert` : `addList` between two neighbours inserts there;
* `Ring.remove` : `delList` removes a node and leaves its own links as they were;
* `Ring.congr` : a ring depends only on the links of its nodes;
* `Ring.unique` : the links determine the ring.
-/

namespace GarretOS

/-- The two link fields `prev` and `next` of every node. -/
structure Links (α : Type*) where
  /-- The `prev` fields. -/
  prev : α → α
  /-- The `next` fields. -/
  next : α → α

namespace Links

variable {α : Type*} [DecidableEq α] (L : Links α)

/-- The assignment `a->next = b`. -/
def setNext (a b : α) : Links α := { L with next := Function.update L.next a b }

/-- The assignment `a->prev = b`. -/
def setPrev (a b : α) : Links α := { L with prev := Function.update L.prev a b }

@[simp] theorem setNext_next (a b x : α) :
    (L.setNext a b).next x = if x = a then b else L.next x := by
  simp [setNext, Function.update_apply]

@[simp] theorem setNext_prev (a b : α) : (L.setNext a b).prev = L.prev := rfl

@[simp] theorem setPrev_prev (a b x : α) :
    (L.setPrev a b).prev x = if x = a then b else L.prev x := by
  simp [setPrev, Function.update_apply]

@[simp] theorem setPrev_next (a b : α) : (L.setPrev a b).next = L.next := rfl

/-- `init_list` : link a node to itself. -/
def initList (list : α) : Links α := (L.setNext list list).setPrev list list

/-- `list_empty` : is the node linked to itself? -/
def listEmpty (list : α) : Bool := list = L.prev list ∧ list = L.next list

/-- `add_list` : insert `entry` between the two consecutive nodes `prev` and `next`. -/
def addList (prev next entry : α) : Links α :=
  (((L.setPrev next entry).setNext prev entry).setPrev entry prev).setNext entry next

/-- `del_list` : make the neighbours of `list` point to each other. -/
def delList (list : α) : Links α :=
  let L := L.setNext (L.prev list) (L.next list)
  L.setPrev (L.next list) (L.prev list)

/-- `b` follows `a`. -/
def Linked (a b : α) : Prop := L.next a = b ∧ L.prev b = a

end Links

variable {α : Type*} {L L' : Links α} {h : α}

/-- The nodes `xs` hang, in this order, between the head `h` and itself. -/
structure Ring (L : Links α) (h : α) (xs : List α) : Prop where
  /-- Each node is linked to the following one, and the last one to the head. -/
  chain : (h :: xs ++ [h]).IsChain L.Linked
  /-- No node is linked twice. -/
  nodup : (h :: xs).Nodup

/-! ### Chains of linked nodes -/

/-- A chain depends only on the `next` fields of all its nodes but the last and on the `prev`
fields of all but the first. -/
theorem chain_congr {l : List α} (hc : l.IsChain L.Linked)
    (hn : ∀ a ∈ l.dropLast, L'.next a = L.next a) (hp : ∀ b ∈ l.tail, L'.prev b = L.prev b) :
    l.IsChain L'.Linked := by
  rw [List.isChain_iff_forall_rel_of_append_cons_cons] at hc ⊢
  intro a b l₁ l₂ hl
  obtain ⟨h1, h2⟩ := hc hl
  have ha : a ∈ l.dropLast := by simp [hl]
  have hb : b ∈ l.tail := by
    cases l₁ <;> simp [hl]
  exact ⟨(hn a ha).trans h1, (hp b hb).trans h2⟩

/-- In a list without repetition the last node is not among the earlier ones. -/
theorem ne_getLast_of_mem_dropLast {l : List α} (hl : l.Nodup) {a b : α} (ha : a ∈ l.dropLast)
    (hb : b ∈ l.getLast?) : a ≠ b := by
  rintro rfl
  rw [← List.dropLast_append_getLast? _ hb] at hl
  exact (List.nodup_append.1 hl).2.2 a ha a (by simp) rfl

/-- In a list without repetition the first node is not among the later ones. -/
theorem ne_head_of_mem_tail {l : List α} (hl : l.Nodup) {a b : α} (ha : a ∈ l.tail)
    (hb : b ∈ l.head?) : a ≠ b := by
  rintro rfl
  cases l with
  | nil => simp at ha
  | cons x l =>
    simp only [List.head?_cons, Option.mem_some_iff] at hb
    exact (List.nodup_cons.1 hl).1 (hb ▸ ha)

/-- The last of the nodes `h :: xs`. -/
theorem getLast?_cons_eq (h : α) (xs : List α) : (h :: xs).getLast? = some (xs.getLastD h) := by
  simp [List.getLast?_cons, List.getLastD_eq_getLast?]

/-- The first of the nodes `ys ++ [h]`. -/
theorem head?_concat_eq (h : α) (ys : List α) : (ys ++ [h]).head? = some (ys.headD h) := by
  cases ys <;> simp

theorem getLastD_mem (h : α) (xs : List α) : xs.getLastD h ∈ h :: xs :=
  List.mem_of_getLast? (getLast?_cons_eq h xs)

theorem headD_mem (h : α) (ys : List α) : ys.headD h ∈ ys ++ [h] :=
  List.mem_of_head? (head?_concat_eq h ys)

/-- Around a gap in a list without repetition: the node before it does not come after it, and
the node after it does not come before. -/
theorem gap_notMem {xs ys : List α} (hn : (h :: (xs ++ ys)).Nodup) :
    xs.getLastD h ∉ ys ∧ ys.headD h ∉ xs := by
  simp only [List.nodup_cons, List.mem_append, not_or, List.nodup_append] at hn
  obtain ⟨⟨hx, hy⟩, -, -, hd⟩ := hn
  refine ⟨fun hm => ?_, fun hm => ?_⟩
  · rcases List.mem_cons.1 (getLastD_mem h xs) with h' | h'
    · exact hy (h' ▸ hm)
    · exact hd _ h' _ hm rfl
  · rcases List.mem_append.1 (headD_mem h ys) with h' | h'
    · exact hd _ hm _ h' rfl
    · exact hx (List.mem_singleton.1 h' ▸ hm)

/-- The ends of a gap are nodes of the ring. -/
theorem ends_mem (h : α) (xs ys : List α) :
    xs.getLastD h ∈ h :: (xs ++ ys) ∧ ys.headD h ∈ h :: (xs ++ ys) := by
  refine ⟨?_, ?_⟩
  · rcases List.mem_cons.1 (getLastD_mem h xs) with hm | hm
    · rw [hm]; exact List.mem_cons_self
    · exact List.mem_cons_of_mem _ (List.mem_append_left _ hm)
  · rcases List.mem_append.1 (headD_mem h ys) with hm | hm
    · exact List.mem_cons_of_mem _ (List.mem_append_right _ hm)
    · rw [List.mem_singleton.1 hm]; exact List.mem_cons_self

namespace Ring

theorem nodup_split {xs ys : List α} (hr : Ring L h (xs ++ ys)) :
    (h :: xs).Nodup ∧ (ys ++ [h]).Nodup := by
  have hn := hr.nodup
  simp only [List.nodup_cons, List.mem_append, not_or, List.nodup_append, List.mem_singleton,
    List.nodup_nil, List.not_mem_nil, not_false_eq_true, and_true, true_and] at hn ⊢
  obtain ⟨⟨hx, hy⟩, hnx, hny, -⟩ := hn
  refine ⟨⟨hx, hnx⟩, hny, ?_⟩
  rintro a ha b rfl rfl
  exact hy ha

/-- A ring taken apart between the nodes `xs` and the nodes `ys`. -/
theorem split {xs ys : List α} (hr : Ring L h (xs ++ ys)) :
    (h :: xs).IsChain L.Linked ∧ (ys ++ [h]).IsChain L.Linked ∧
      L.Linked (xs.getLastD h) (ys.headD h) := by
  have hc : ((h :: xs) ++ (ys ++ [h])).IsChain L.Linked := by
    simpa using hr.chain
  rw [List.isChain_append] at hc
  exact ⟨hc.1, hc.2.1, hc.2.2 _ (getLast?_cons_eq h xs) _ (head?_concat_eq h ys)⟩

theorem next_getLastD {xs ys : List α} (hr : Ring L h (xs ++ ys)) :
    L.next (xs.getLastD h) = ys.headD h := hr.split.2.2.1

theorem prev_headD {xs ys : List α} (hr : Ring L h (xs ++ ys)) :
    L.prev (ys.headD h) = xs.getLastD h := hr.split.2.2.2

theorem next_head {xs : List α} (hr : Ring L h xs) : L.next h = xs.headD h :=
  (show Ring L h ([] ++ xs) from hr).next_getLastD

theorem prev_head {xs : List α} (hr : Ring L h xs) : L.prev h = xs.getLastD h := by
  have hs : Ring L h (xs ++ []) := by simpa using hr
  simpa using hs.prev_headD

/-- The successor of a node inside the ring. -/
theorem next_mem {xs ys : List α} {e : α} (hr : Ring L h (xs ++ e :: ys)) :
    L.next e = ys.headD h := by
  have hs : Ring L h ((xs ++ [e]) ++ ys) := by simpa using hr
  simpa using hs.next_getLastD

/-- The predecessor of a node inside the ring. -/
theorem prev_mem {xs ys : List α} {e : α} (hr : Ring L h (xs ++ e :: ys)) :
    L.prev e = xs.getLastD h := by
  simpa using prev_headD hr

theorem ne_head {xs : List α} (hr : Ring L h xs) {e : α} (he : e ∈ xs) : e ≠ h := by
  rintro rfl
  exact (List.nodup_cons.1 hr.nodup).1 he

/-- A ring depends only on the links of its nodes. -/
theorem congr {xs : List α} (hr : Ring L h xs) (hn : ∀ a ∈ h :: xs, L'.next a = L.next a)
    (hp : ∀ a ∈ h :: xs, L'.prev a = L.prev a) : Ring L' h xs := by
  refine ⟨chain_congr hr.chain (fun a ha => hn a ?_) (fun b hb => hp b ?_), hr.nodup⟩
  · rwa [List.dropLast_concat] at ha
  · simp only [List.cons_append, List.tail_cons, List.mem_append, List.mem_singleton] at hb
    rcases hb with hb | rfl
    · exact List.mem_cons_of_mem _ hb
    · exact List.mem_cons_self

/-- The neighbours of a linked node are other nodes. -/
theorem ne_neighbours {xs ys : List α} {e : α} (hr : Ring L h (xs ++ e :: ys)) :
    xs.getLastD h ≠ e ∧ ys.headD h ≠ e := by
  have hs : Ring L h ((xs ++ [e]) ++ ys) := by simpa using hr
  have he : e ∉ h :: xs := by
    have hn := hr.nodup
    simp only [List.nodup_cons, List.nodup_append, List.mem_append, List.mem_cons] at hn ⊢
    rintro (rfl | hm)
    · exact hn.1 (Or.inr (Or.inl rfl))
    · exact hn.2.2.2 e hm e (Or.inl rfl) rfl
  have he' : e ∉ ys ++ [h] := by
    have hn := (gap_notMem hs.nodup).1
    simp only [List.mem_append, List.mem_singleton, not_or]
    exact ⟨by simpa using hn, fun h' => he (h' ▸ List.mem_cons_self)⟩
  exact ⟨fun h' => he (h' ▸ getLastD_mem h xs), fun h' => he' (h' ▸ headD_mem h ys)⟩

section Operations

variable [DecidableEq α]

theorem initList_nil (L : Links α) (h : α) : Ring (L.initList h) h [] := by
  refine ⟨?_, by simp⟩
  simp [Links.Linked, Links.initList]

/-- Inserting a new node between two neighbours. -/
theorem insert {xs ys : List α} {e : α} (hr : Ring L h (xs ++ ys)) (he : e ∉ h :: (xs ++ ys)) :
    Ring (L.addList (xs.getLastD h) (ys.headD h) e) h (xs ++ e :: ys) := by
  obtain ⟨hx, hy, -⟩ := hr.split
  obtain ⟨hnx, hny⟩ := hr.nodup_split
  have hl := getLast?_cons_eq h xs
  have hf := head?_concat_eq h ys
  simp only [List.mem_cons, List.mem_append, not_or] at he
  obtain ⟨heh, hxs, hys⟩ := he
  have hex : e ∉ h :: xs := by simp [heh, hxs]
  have hey : e ∉ ys ++ [h] := by simp [heh, hys]
  obtain ⟨hlast, hfirst⟩ := gap_notMem hr.nodup
  have hnext : ∀ a, a ≠ e → (L.addList (xs.getLastD h) (ys.headD h) e).next a =
      if a = xs.getLastD h then e else L.next a := by
    intro a ha
    simp [Links.addList, ha]
  have hprev : ∀ a, a ≠ e → (L.addList (xs.getLastD h) (ys.headD h) e).prev a =
      if a = ys.headD h then e else L.prev a := by
    intro a ha
    simp [Links.addList, ha]
  have hle : xs.getLastD h ≠ e := fun h' => hex (h' ▸ getLastD_mem h xs)
  have hfe : ys.headD h ≠ e := fun h' => hey (h' ▸ headD_mem h ys)
  constructor
  · have hsplit : h :: (xs ++ e :: ys) ++ [h] = (h :: xs) ++ e :: (ys ++ [h]) := by simp
    rw [hsplit, List.isChain_append]
    refine ⟨?_, List.isChain_cons.2 ⟨?_, ?_⟩, ?_⟩
    · -- before the new node only the last `next` field has changed
      refine chain_congr hx (fun a ha => ?_) (fun b hb => ?_)
      · rw [hnext, if_neg (ne_getLast_of_mem_dropLast hnx ha hl)]
        rintro rfl
        exact hex (List.dropLast_subset _ ha)
      · rw [hprev, if_neg]
        · rintro rfl; exact hfirst hb
        · rintro rfl; exact hex (List.mem_of_mem_tail hb)
    · intro y hy'
      obtain rfl : ys.headD h = y := by simpa [hf] using hy'
      exact ⟨by simp [Links.addList], by rw [hprev _ hfe, if_pos rfl]⟩
    · -- after it only the first `prev` field has changed
      refine chain_congr hy (fun a ha => ?_) (fun b hb => ?_)
      · rw [List.dropLast_concat] at ha
        rw [hnext, if_neg]
        · rintro rfl; exact hlast ha
        · rintro rfl; exact hey (List.mem_append_left _ ha)
      · rw [hprev, if_neg (ne_head_of_mem_tail hny hb hf)]
        rintro rfl
        exact hey (List.mem_of_mem_tail hb)
    · intro x hx' y hy'
      obtain rfl : xs.getLastD h = x := by simpa [hl] using hx'
      obtain rfl : e = y := by simpa using hy'
      exact ⟨by rw [hnext _ hle, if_pos rfl], by simp [Links.addList]⟩
  · have hn := hr.nodup
    simp only [List.nodup_cons, List.mem_append, not_or, List.nodup_append, List.mem_cons] at hn ⊢
    obtain ⟨⟨h1, h2⟩, h3, h4, h5⟩ := hn
    refine ⟨⟨h1, Ne.symm heh, h2⟩, h3, ⟨hys, h4⟩, ?_⟩
    rintro a ha b (rfl | hb)
    · rintro rfl; exact hxs ha
    · exact h5 a ha b hb

/-- Inserting a node leaves the links of the nodes outside the ring alone. -/
theorem addList_of_notMem {xs ys : List α} {e z : α} (hz : z ∉ h :: (xs ++ ys)) (hze : z ≠ e) :
    (L.addList (xs.getLastD h) (ys.headD h) e).next z = L.next z ∧
      (L.addList (xs.getLastD h) (ys.headD h) e).prev z = L.prev z := by
  obtain ⟨h1, h2⟩ := ends_mem h xs ys
  have hl : z ≠ xs.getLastD h := fun he => hz (he ▸ h1)
  have hf : z ≠ ys.headD h := fun he => hz (he ▸ h2)
  simp only [Links.addList, Links.setNext_next, Links.setPrev_next, Links.setNext_prev,
    Links.setPrev_prev, if_neg hze, if_neg hl, if_neg hf, and_self]

/-- The links of a deleted node are left as they were. -/
theorem delList_self {xs ys : List α} {e : α} (hr : Ring L h (xs ++ e :: ys)) :
    (L.delList e).next e = L.next e ∧ (L.delList e).prev e = L.prev e := by
  obtain ⟨h1, h2⟩ := hr.ne_neighbours
  rw [← hr.prev_mem] at h1
  rw [← hr.next_mem] at h2
  simp [Links.delList, Ne.symm h1, Ne.symm h2]

/-- Deleting a node rewrites the `next` field of its predecessor and the `prev` field of its
successor. -/
theorem delList_next {xs ys : List α} {e : α} (hr : Ring L h (xs ++ e :: ys)) (a : α) :
    (L.delList e).next a = if a = xs.getLastD h then ys.headD h else L.next a := by
  simp [Links.delList, hr.next_mem, hr.prev_mem]

theorem delList_prev {xs ys : List α} {e : α} (hr : Ring L h (xs ++ e :: ys)) (a : α) :
    (L.delList e).prev a = if a = ys.headD h then xs.getLastD h else L.prev a := by
  simp [Links.delList, hr.next_mem, hr.prev_mem]

/-- Deleting a node leaves the links of the nodes outside the ring alone. -/
theorem delList_of_notMem {xs ys : List α} {e z : α} (hr : Ring L h (xs ++ e :: ys))
    (hz : z ∉ h :: (xs ++ ys)) :
    (L.delList e).next z = L.next z ∧ (L.delList e).prev z = L.prev z := by
  obtain ⟨h1, h2⟩ := ends_mem h xs ys
  rw [hr.delList_next, hr.delList_prev, if_neg, if_neg]
  · exact ⟨rfl, rfl⟩
  · exact fun he => hz (he ▸ h2)
  · exact fun he => hz (he ▸ h1)

/-- Deleting a node. -/
theorem remove {xs ys : List α} {e : α} (hr : Ring L h (xs ++ e :: ys)) :
    Ring (L.delList e) h (xs ++ ys) := by
  have hs : Ring L h ((xs ++ [e]) ++ ys) := by simpa using hr
  obtain ⟨hx, -, -⟩ := hr.split
  obtain ⟨-, hy, -⟩ := hs.split
  have hnx := hr.nodup_split.1
  have hny := hs.nodup_split.2
  have hn : (h :: (xs ++ ys)).Nodup := hr.nodup.sublist (by simp)
  have hl := getLast?_cons_eq h xs
  have hf := head?_concat_eq h ys
  obtain ⟨hlast, hfirst⟩ := gap_notMem hn
  refine ⟨?_, hn⟩
  have hsplit : h :: (xs ++ ys) ++ [h] = (h :: xs) ++ (ys ++ [h]) := by simp
  rw [hsplit, List.isChain_append]
  refine ⟨?_, ?_, ?_⟩
  · refine chain_congr hx (fun a ha => ?_) (fun b hb => ?_)
    · rw [hr.delList_next, if_neg (ne_getLast_of_mem_dropLast hnx ha hl)]
    · rw [hr.delList_prev, if_neg]
      rintro rfl; exact hfirst hb
  · refine chain_congr hy (fun a ha => ?_) (fun b hb => ?_)
    · rw [List.dropLast_concat] at ha
      rw [hr.delList_next, if_neg]
      rintro rfl; exact hlast ha
    · rw [hr.delList_prev, if_neg (ne_head_of_mem_tail hny hb hf)]
  · intro x hx' y hy'
    obtain rfl : xs.getLastD h = x := by simpa [hl] using hx'
    obtain rfl : ys.headD h = y := by simpa [hf] using hy'
    exact ⟨by rw [hr.delList_next, if_pos rfl], by rw [hr.delList_prev, if_pos rfl]⟩

omit [DecidableEq α] in
/-- The links determine the ring: it is read off by following `next` from the head. -/
theorem unique {xs ys : List α} (hx : Ring L h xs) (hy : Ring L h ys) : xs = ys := by
  have key : ∀ (as bs done : List α), Ring L h (done ++ as) → Ring L h (done ++ bs) → as = bs := by
    intro as
    induction as with
    | nil =>
      intro bs done ha hb
      cases bs with
      | nil => rfl
      | cons b bs =>
        have hnext := hb.next_getLastD.symm.trans ha.next_getLastD
        exact absurd hnext (hb.ne_head (by simp))
    | cons a as ih =>
      intro bs done ha hb
      have hnext := ha.next_getLastD.symm.trans hb.next_getLastD
      cases bs with
      | nil => exact absurd hnext (ha.ne_head (by simp))
      | cons b bs =>
        obtain rfl : a = b := hnext
        rw [List.append_cons] at ha hb
        rw [ih bs (done ++ [a]) ha hb]
  exact key xs ys [] hx hy

/-- The head of a ring is linked to itself just when the ring is empty. -/
theorem listEmpty_head {xs : List α} (hr : Ring L h xs) : L.listEmpty h = xs.isEmpty := by
  cases xs with
  | nil => simp [Links.listEmpty, hr.next_head, hr.prev_head]
  | cons x xs =>
    have := hr.ne_head (List.mem_cons_self (a := x) (l := xs))
    simp [Links.listEmpty, hr.next_head, Ne.symm this]

theorem listEmpty_mem {xs : List α} (hr : Ring L h xs) {e : α} (he : e ∈ xs) :
    L.listEmpty e = false := by
  obtain ⟨us, vs, rfl⟩ := List.append_of_mem he
  have hne := hr.ne_neighbours.2
  rw [← hr.next_mem] at hne
  simp [Links.listEmpty, Ne.symm hne]

end Operations

end Ring

end GarretOS
