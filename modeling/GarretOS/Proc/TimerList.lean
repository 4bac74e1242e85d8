import GarretOS.Countdown.Basic
import GarretOS.Proc.Timer
import GarretOS.System.Basic
import Mathlib.Data.Set.Insert

/-!
# The timer list as a set of countdowns

`TimerList T K xs` says that the list `g_timer_list` of the timers `T` stands for the countdowns
`xs`, in the order of their deadlines, each stored as the difference to the one before it.  The
set `K` holds the timers that have been initialised; those that are not in the list are linked to
themselves.

* `TimerList.addTimer`, `TimerList.delTimer`, `TimerList.runTimers` : the functions of the kernel
  as operations on the countdowns;
* `timers_refine_countdowns` : along every run each tick fires the timers that are due.
-/

namespace GarretOS

namespace Timers

open Countdown

variable {τ π σ : Type}

/-- The list node of a countdown. -/
def node (x : (τ × π) × ℕ) : Option τ := some x.1.1

section

variable {T : Timers τ π} {K : Set τ} {x : (τ × π) × ℕ} {xs as bs : List ((τ × π) × ℕ)}

theorem node_mem {t : τ} : some t ∈ xs.map node ↔ ∃ x ∈ xs, x.1.1 = t := by
  simp [node]

theorem headD_node_cons (x : (τ × π) × ℕ) (xs : List ((τ × π) × ℕ)) :
    ((x :: xs).map node).headD none = some x.1.1 := rfl

/-- A timer occurs once in the list. -/
theorem ring_inj {L : Links (Option τ)} (hr : Ring L none (xs.map node)) {y : (τ × π) × ℕ}
    (hx : x ∈ xs) (hy : y ∈ xs) (he : x.1.1 = y.1.1) : x = y :=
  List.inj_on_of_nodup_map (List.nodup_cons.1 hr.nodup).2 hx hy (by simp [node, he])

/-- The other entries of the list belong to other timers. -/
theorem ring_ne {L : Links (Option τ)} (hr : Ring L none ((as ++ x :: bs).map node)) :
    ∀ y ∈ as ++ bs, y.1.1 ≠ x.1.1 := by
  have hn := (List.nodup_cons.1 hr.nodup).2
  rw [List.map_append, List.map_cons, List.nodup_append, List.nodup_cons] at hn
  obtain ⟨-, ⟨h1, -⟩, h2⟩ := hn
  intro y hy he
  rcases List.mem_append.1 hy with hy | hy
  · exact h2 (node y) (List.mem_map_of_mem hy) (node x) List.mem_cons_self (by simp [node, he])
  · exact h1 (List.mem_map.2 ⟨y, hy, by simp [node, he]⟩)

variable [DecidableEq τ]

/-- The timer list of `T` consists of the countdowns `xs`. -/
structure TimerList (T : Timers τ π) (K : Set τ) (xs : List ((τ × π) × ℕ)) : Prop where
  /-- The timers are linked in this order. -/
  ring : Ring T.link none (xs.map node)
  /-- A timer knows its process. -/
  proc : ∀ x ∈ xs, T.proc x.1.1 = x.1.2
  /-- A timer stores the ticks that it lasts longer than the one before it. -/
  deltas : Deltas (fun k => T.expires k.1) 0 xs
  /-- The number of ticks fits a `u32`. -/
  bound : ∀ x ∈ xs, x.2 < 2 ^ 32
  /-- Timers in the list have been initialised. -/
  known : ∀ x ∈ xs, x.1.1 ∈ K
  /-- Initialised timers outside the list are linked to themselves. -/
  idle : ∀ t ∈ K, (∀ x ∈ xs, x.1.1 ≠ t) → T.link.listEmpty (some t)

@[simp] theorem setExpires_expires (T : Timers τ π) (t u : τ) (e : ℕ) :
    (T.setExpires t e).expires u = if u = t then e else T.expires u := by
  simp [setExpires, Function.update_apply]

@[simp] theorem setExpires_proc (T : Timers τ π) (t : τ) (e : ℕ) :
    (T.setExpires t e).proc = T.proc := rfl

@[simp] theorem setExpires_link (T : Timers τ π) (t : τ) (e : ℕ) :
    (T.setExpires t e).link = T.link := rfl

namespace TimerList

/-! ### Adding a timer -/

/-- The search of `add_timer` stops before the first countdown that ends later than the new one,
and encodes both relative to their new neighbours. -/
theorem addLoop_spec {t : τ} {p : π} {e : ℕ}
    (hr : Ring T.link none ((as ++ bs).map node))
    (hd : Deltas (fun k => T.expires k.1) 0 (as ++ bs)) (hbound : ∀ x ∈ as ++ bs, x.2 < 2 ^ 32)
    (ht : ∀ x ∈ as ++ bs, x.1.1 ≠ t) (he : T.expires t + lastDeadline 0 as = e)
    (has : ∀ a ∈ as, a.2 ≤ e) (hlt : e < 2 ^ 32) :
    ∃ bs₁ bs₂ T', bs = bs₁ ++ bs₂ ∧ (∀ b ∈ bs₁, b.2 ≤ e) ∧
      (∀ b ∈ bs₂.head?, e < b.2) ∧ T'.link = T.link ∧ T'.proc = T.proc ∧
      Deltas (fun k => T'.expires k.1) 0 (as ++ bs₁ ++ ((t, p), e) :: bs₂) ∧
      ∀ ar : Arith, ar.Exact → Fueled bs.length
        (fun k => addLoop ar t k T ((bs.map node).headD none))
        (.ok (T', (bs₂.map node).headD none)) := by
  -- over the timers that are still ahead; those behind, `as`, end before the new one or with it
  induction bs generalizing as T with
  | nil =>
    refine ⟨[], [], T, rfl, by simp, by simp, rfl, rfl, ?_, ?_⟩
    · simp only [List.append_nil] at hd ⊢
      exact deltas_append.2 ⟨hd, he, trivial⟩
    · rintro ar - (_ | k)
      · exact Or.inr ⟨le_rfl, rfl⟩
      · exact Or.inl rfl
  | cons b bs ih =>
    have hne : b.1.1 ≠ t := ht b (by simp)
    obtain ⟨hda, hb, hdb⟩ := deltas_append.1 hd
    simp only at hb
    have hblt : b.2 < 2 ^ 32 := hbound b (by simp)
    by_cases hc : T.expires t < T.expires b.1.1
    · -- the next timer ends later: its ticks are counted from the new one on
      refine ⟨[], b :: bs, T.setExpires b.1.1 (T.expires b.1.1 - T.expires t), rfl, by simp,
        by simp; omega, rfl, rfl, ?_, ?_⟩
      · have hother := ring_ne hr
        rw [List.append_nil]
        refine deltas_append.2 ⟨hda.congr fun a ha => ?_, ?_, ?_, hdb.congr fun c hc => ?_⟩
        · simp [hother a (by simp [ha])]
        · simp [Ne.symm hne, he]
        · simp; omega
        · simp [hother c (by simp [hc])]
      · rintro ar har (_ | k)
        · exact Or.inr ⟨Nat.zero_le _, rfl⟩
        · refine Or.inl ?_
          simp only [headD_node_cons, addLoop, if_pos hc, har.sub hc.le (by omega), ok_bind]
          rfl
    · -- the new timer ends later, or at the same time: the search goes on with what is left of it
      have hle : T.expires b.1.1 ≤ T.expires t := Nat.not_lt.1 hc
      have hbe : b.2 ≤ e := by omega
      have hagree : ∀ x ∈ as ++ b :: bs,
          (T.setExpires t (T.expires t - T.expires b.1.1)).expires x.1.1 = T.expires x.1.1 :=
        fun x hx => by simp [ht x hx]
      obtain ⟨bs₁, bs₂, T', rfl, h1, h2, h3, h4, h5, h6⟩ :=
        @ih (T.setExpires t (T.expires t - T.expires b.1.1)) (as ++ [b]) (by simpa using hr)
          (by
            simp only [List.append_assoc, List.singleton_append]
            exact hd.congr hagree) (by simpa using hbound) (by simpa using ht)
          (by simp; omega) (by
            intro a ha
            rcases List.mem_append.1 ha with ha | ha
            · exact has a ha
            · rwa [List.mem_singleton.1 ha])
      refine ⟨b :: bs₁, bs₂, T', rfl, ?_, h2, h3, h4, by simpa using h5, ?_⟩
      · rintro c (_ | ⟨_, hc⟩)
        · exact hbe
        · exact h1 c hc
      · rintro ar har (_ | k)
        · exact Or.inr ⟨Nat.zero_le _, rfl⟩
        · have hnext : T.link.next (some b.1.1) = ((bs₁ ++ bs₂).map node).headD none := by
            rw [List.map_append, List.map_cons] at hr
            exact hr.next_mem
          simp only [headD_node_cons, addLoop, if_neg hc, har.sub hle (by omega), ok_bind, hnext]
          rcases h6 ar har k with h | ⟨hk, h⟩
          · exact Or.inl h
          · exact Or.inr ⟨by simpa using hk, h⟩

theorem initTimer (h : TimerList T K xs) {t : τ} (ht : ∀ x ∈ xs, x.1.1 ≠ t) (p : π) (e : ℕ) :
    TimerList (T.initTimer t p e) (insert t K) xs := by
  have hnode : ∀ y ∈ none :: xs.map node, y ≠ some t := by
    rintro y hy rfl
    obtain ⟨x, hx, he⟩ := node_mem.1 ((List.mem_cons.1 hy).resolve_left (by simp))
    exact ht x hx he
  refine ⟨h.ring.congr (fun y hy => ?_) fun y hy => ?_, fun x hx => ?_, h.deltas.congr fun x hx => ?_,
    h.bound, fun x hx => Or.inr (h.known x hx), fun u hu hne => ?_⟩
  · simp [Timers.initTimer, Links.initList, hnode y hy]
  · simp [Timers.initTimer, Links.initList, hnode y hy]
  · simp [Timers.initTimer, Function.update_of_ne (ht x hx), h.proc x hx]
  · simp [Timers.initTimer, Function.update_of_ne (ht x hx)]
  · by_cases hut : u = t
    · simp [Timers.initTimer, Links.initList, Links.listEmpty, hut]
    · have := h.idle u (hu.resolve_left hut) hne
      simpa [Timers.initTimer, Links.initList, Links.listEmpty, hut] using this

/-- **Adding a timer** starts its countdown, behind those that do not end later. -/
theorem addTimer (h : TimerList T K xs) {ys : List ((τ × π) × ℕ)} (hys : ByDeadline xs ys)
    {t : τ} (ht : ∀ x ∈ xs, x.1.1 ≠ t) (p : π) {e : ℕ} (he : 0 < e) (hlt : e < 2 ^ 32) :
    ∃ xs' T', TimerList T' (insert t K) xs' ∧ ByDeadline xs' (ys ++ [((t, p), e)]) ∧
      ∀ ar : Arith, ar.Exact →
        Fueled xs.length (fun k => addTimer ar k (T.initTimer t p e) t) (.ok T') := by
  have h' := h.initTimer ht p e
  have hte : (T.initTimer t p e).expires t = e := by simp [Timers.initTimer]
  obtain ⟨as, bs, T', rfl, has, hbs, hlink, hproc, hd, hloop⟩ :=
    @addLoop_spec _ _ (T.initTimer t p e) [] xs _ t p e h'.ring h'.deltas h'.bound ht
      (by simpa using hte) (by simp) hlt
  -- the list is sorted, so all behind the first one that ends later do so too
  have hgt : ∀ b ∈ bs, e < b.2 := by
    cases bs with
    | nil => simp
    | cons b bs =>
      have hb := hbs b rfl
      have hs := (List.pairwise_append.1 hys.sorted).2.1
      rintro c (_ | ⟨_, hc⟩)
      · exact hb
      · have := (List.pairwise_cons.1 hs).1 c hc
        omega
  have hring := h'.ring
  rw [List.map_append] at hring
  have hprev : T'.link.prev ((bs.map node).headD none) = (as.map node).getLastD none := by
    rw [hlink]
    exact hring.prev_headD
  refine ⟨as ++ ((t, p), e) :: bs, { T' with
    link := T'.link.addList (T'.link.prev ((bs.map node).headD none)) ((bs.map node).headD none)
      (some t) }, ⟨?_, ?_, by simpa using hd, ?_, ?_, ?_⟩, hys.add has hgt, fun ar har => ?_⟩
  · have hfresh : some t ∉ none :: (as.map node ++ bs.map node) := by
      rw [← List.map_append]
      simp only [List.mem_cons, reduceCtorEq, false_or, node_mem]
      rintro ⟨x, hx, he⟩
      exact ht x hx he
    have := hring.insert hfresh
    rw [hprev, hlink]
    simpa [node] using this
  · intro x hx
    simp only [List.mem_append, List.mem_cons] at hx
    rw [hproc]
    rcases hx with hx | rfl | hx
    · exact h'.proc x (by simp [hx])
    · simp [Timers.initTimer]
    · exact h'.proc x (by simp [hx])
  · intro x hx
    simp only [List.mem_append, List.mem_cons] at hx
    rcases hx with hx | rfl | hx
    · exact h.bound x (by simp [hx])
    · exact hlt
    · exact h.bound x (by simp [hx])
  · intro x hx
    simp only [List.mem_append, List.mem_cons] at hx
    rcases hx with hx | rfl | hx
    · exact h'.known x (by simp [hx])
    · exact Or.inl rfl
    · exact h'.known x (by simp [hx])
  · intro u hu hne
    have hut : u ≠ t := Ne.symm (hne ((t, p), e) (by simp))
    have hidle := h'.idle u hu fun x hx => hne x (by
      simp only [List.mem_append, List.mem_cons] at hx ⊢
      tauto)
    have hnode : some u ∉ none :: (as.map node ++ bs.map node) := by
      rw [← List.map_append]
      simp only [List.mem_cons, reduceCtorEq, false_or, node_mem]
      rintro ⟨x, hx, he⟩
      refine hne x ?_ he
      simp only [List.mem_append, List.mem_cons] at hx ⊢
      tauto
    obtain ⟨h1, h2⟩ := Ring.addList_of_notMem (e := some t) (L := T'.link) hnode (by simpa)
    rw [hlink] at h1 h2
    rw [hprev, hlink]
    simpa only [Links.listEmpty, h1, h2] using hidle
  · have hempty : (T.initTimer t p e).link.listEmpty (some t) := by
      simp [Timers.initTimer, Links.initList, Links.listEmpty]
    have hfirst : (T.initTimer t p e).link.next none = ((as ++ bs).map node).headD none := by
      rw [List.map_append]
      exact hring.next_head
    unfold Timers.addTimer
    rw [assert_of (by rw [hte]; exact he), assert_of hempty, hfirst]
    exact (hloop ar har).bind _

/-! ### Deleting a timer -/

/-- `giveBack` encodes the countdown after the one at `x` relative to the one before it. -/
theorem giveBack_spec (h : TimerList T K (as ++ x :: bs)) :
    ∃ T' : Timers τ π, T'.link = T.link ∧ T'.proc = T.proc ∧
      Deltas (fun k => T'.expires k.1) 0 (as ++ bs) ∧
      ∀ ar : Arith, ar.Exact → giveBack ar T x.1.1 = .ok T' := by
  obtain ⟨hda, hx, hdb⟩ := deltas_append.1 h.deltas
  simp only at hx
  have hr := h.ring
  rw [List.map_append, List.map_cons] at hr
  have hnext : T.link.next (some x.1.1) = (bs.map node).headD none := hr.next_mem
  by_cases h0 : T.expires x.1.1 = 0
  · refine ⟨T, rfl, rfl, deltas_append.2 ⟨hda, ?_⟩, fun ar _ => by rw [giveBack, if_pos h0]⟩
    rw [h0, Nat.zero_add] at hx
    exact hx ▸ hdb
  · cases bs with
    | nil =>
      refine ⟨T, rfl, rfl, by simpa using hda, fun ar _ => ?_⟩
      simp only [giveBack, if_neg h0, hnext, List.map_nil, List.headD_nil]
    | cons b bs =>
      obtain ⟨hb, hdb⟩ := hdb
      simp only at hb
      have hother : ∀ y ∈ as ++ x :: bs, y.1.1 ≠ b.1.1 := by
        have hr' : Ring T.link none (((as ++ [x]) ++ b :: bs).map node) := by simpa using h.ring
        simpa using ring_ne hr'
      refine ⟨T.setExpires b.1.1 (T.expires b.1.1 + T.expires x.1.1), rfl, rfl,
        deltas_append.2 ⟨hda.congr fun a ha => ?_, ?_, hdb.congr fun c hc => ?_⟩, fun ar har => ?_⟩
      · simp [hother a (by simp [ha])]
      · simp; omega
      · simp [hother c (by simp [hc])]
      · have hlt : T.expires b.1.1 + T.expires x.1.1 < 2 ^ 32 := by
          have := h.bound b (by simp)
          omega
        simp only [giveBack, if_neg h0, hnext, headD_node_cons, har.add hlt, ok_bind]
        rfl

/-- **Deleting a timer** stops its countdown and no other. -/
theorem delTimer (h : TimerList T K (as ++ x :: bs)) :
    ∃ T', TimerList T' K (as ++ bs) ∧ T'.proc = T.proc ∧
      ∀ ar : Arith, ar.Exact → delTimer ar T x.1.1 = .ok T' := by
  have hr := h.ring
  rw [List.map_append, List.map_cons] at hr
  have hin : T.link.listEmpty (some x.1.1) = false := hr.listEmpty_mem (by simp [node])
  obtain ⟨T₁, hlink, hproc, hd, hgive⟩ := h.giveBack_spec
  have hne := ring_ne h.ring
  have hsub : ∀ y ∈ as ++ bs, y ∈ as ++ x :: bs := by
    intro y hy
    simp only [List.mem_append, List.mem_cons] at hy ⊢
    tauto
  refine ⟨{ T₁ with link := (T.link.delList (some x.1.1)).initList (some x.1.1) },
    ⟨?_, ?_, hd, fun y hy => h.bound y (hsub y hy), fun y hy => h.known y (hsub y hy),
      fun u hu hnu => ?_⟩, hproc, fun ar har => ?_⟩
  · have hnode : ∀ y ∈ none :: (as ++ bs).map node, y ≠ some x.1.1 := by
      rintro y hy rfl
      obtain ⟨z, hz, he⟩ := node_mem.1 ((List.mem_cons.1 hy).resolve_left (by simp))
      exact hne z hz he
    have hrem := hr.remove
    rw [← List.map_append] at hrem
    refine hrem.congr (fun y hy => ?_) fun y hy => ?_
    · simp [Links.initList, hnode y hy, node]
    · simp [Links.initList, hnode y hy, node]
  · intro y hy
    rw [hproc]
    exact h.proc y (hsub y hy)
  · by_cases hux : u = x.1.1
    · simp [Links.listEmpty, Links.initList, hux]
    · have hidle := h.idle u hu (by
        intro y hy
        simp only [List.mem_append, List.mem_cons] at hy
        rcases hy with hy | rfl | hy
        · exact hnu y (by simp [hy])
        · exact Ne.symm hux
        · exact hnu y (by simp [hy]))
      have hnode : some u ∉ none :: (as.map node ++ bs.map node) := by
        rw [← List.map_append]
        simp only [List.mem_cons, reduceCtorEq, false_or, node_mem]
        rintro ⟨y, hy, he⟩
        exact hnu y hy he
      obtain ⟨h1, h2⟩ := hr.delList_of_notMem hnode
      simp only [node] at h1 h2
      simpa [Links.listEmpty, Links.initList, hux, h1, h2] using hidle
  · unfold Timers.delTimer
    rw [hin, if_neg (by simp), hgive ar har, ok_bind, hlink]
    rfl

/-- Deleting a timer that is not in the list changes nothing. -/
theorem delTimer_idle (h : TimerList T K xs) {t : τ} (ht : t ∈ K) (hn : ∀ x ∈ xs, x.1.1 ≠ t)
    (ar : Arith) : Timers.delTimer ar T t = .ok T := by
  unfold Timers.delTimer
  rw [if_pos (h.idle t ht hn)]

/-! ### Ticking -/

/-- The loop of `run_timers` fires and deletes the timers that have no ticks left. -/
theorem expireLoop_spec (h : TimerList T K (as ++ bs)) (has : ∀ a ∈ as, a.2 = 0)
    (hbs : ∀ b ∈ bs, 0 < b.2) :
    ∃ T', TimerList T' K bs ∧ (as = [] → T' = T) ∧ ∀ ar : Arith, ar.Exact →
      ∀ (fire : σ → τ → π → Res σ) (s : σ) (t : τ), some t = ((as ++ bs).map node).headD none →
        Fueled (as ++ bs).length (fun k => expireLoop ar fire k t T s)
          (as.foldlM (fun s a => fire s a.1.1 a.1.2) s >>= fun s => .ok (T', s)) := by
  induction as generalizing T with
  | nil =>
    refine ⟨T, h, fun _ => rfl, fun ar har fire s t ht => ?_⟩
    cases bs with
    | nil => simp at ht
    | cons b bs =>
      obtain rfl : t = b.1.1 := Option.some.inj ht
      have hb : T.expires b.1.1 ≠ 0 := by
        have h1 := h.deltas.1
        have h2 := hbs b List.mem_cons_self
        simp only at h1
        omega
      rintro (_ | k)
      · exact Or.inr ⟨Nat.zero_le _, rfl⟩
      · refine Or.inl ?_
        simp only [expireLoop, if_neg hb]
        rfl
  | cons a as ih =>
    have ha0 : T.expires a.1.1 = 0 := by
      have h1 := h.deltas.1
      have h2 := has a List.mem_cons_self
      simp only at h1
      omega
    have hr := h.ring
    have hnext : T.link.next (some a.1.1) = ((as ++ bs).map node).headD none :=
      (show Ring T.link none ([] ++ node a :: (as ++ bs).map node) from hr).next_mem
    have hproc := h.proc a (by simp)
    obtain ⟨T₁, h₁, -, hdel⟩ :=
      (show TimerList T K ([] ++ a :: (as ++ bs)) from h).delTimer
    obtain ⟨T', h', hsame, hloop⟩ := ih h₁ fun b hb => has b (List.mem_cons_of_mem _ hb)
    refine ⟨T', h', by simp, fun ar har fire s t ht => ?_⟩
    obtain rfl : t = a.1.1 := Option.some.inj ht
    rintro (_ | k)
    · exact Or.inr ⟨Nat.zero_le _, rfl⟩
    · simp only [expireLoop, if_pos ha0, List.foldlM_cons, hproc]
      cases hf : fire s a.1.1 a.1.2 with
      | error e => exact Or.inl rfl
      | ok s₁ =>
        simp only [ok_bind, hdel ar har, hnext]
        cases hb : ((as ++ bs).map node).headD none with
        | none =>
          -- the list is empty now
          have hnil : as ++ bs = [] := by
            cases hab : as ++ bs with
            | nil => rfl
            | cons c cs => rw [hab] at hb; cases hb
          obtain ⟨rfl, rfl⟩ := List.append_eq_nil_iff.1 hnil
          rw [hsame rfl]
          exact Or.inl rfl
        | some u =>
          rcases hloop ar har fire s₁ u hb.symm k with hk | ⟨hk, hd⟩
          · exact Or.inl hk
          · exact Or.inr ⟨by simpa using hk, hd⟩

/-- **A tick** of `run_timers` fires the timers that are due and counts the others one down.  Only
the processing of a fired timer can fail. -/
theorem runTimers (h : TimerList T K xs) {ys : List ((τ × π) × ℕ)} (hys : ByDeadline xs ys)
    (hpos : ∀ x ∈ xs, 0 < x.2) :
    ∃ xs' T', TimerList T' K xs' ∧ ByDeadline xs' (Op.tick.apply ys) ∧ (∀ x ∈ xs', 0 < x.2) ∧
      ∀ ar : Arith, ar.Exact → ∀ (fire : σ → τ → π → Res σ) (procTick : σ → σ) (s : σ),
        Fueled xs.length (fun k => Timers.runTimers ar fire procTick k T s)
          ((due ys).foldlM (fun s a => fire s a.1 a.2) s >>= fun s => .ok (T', procTick s)) := by
  obtain ⟨as, bs, rfl, has, hbs, hdue, hys'⟩ := hys.tick hpos
  have hpos' : ∀ b ∈ bs.map fun x => (x.1, x.2 - 1), 0 < b.2 := by
    intro b hb
    obtain ⟨c, hc, rfl⟩ := List.mem_map.1 hb
    have := hbs c hc
    simp only
    omega
  cases hx : as ++ bs with
  | nil =>
    obtain ⟨rfl, rfl⟩ := List.append_eq_nil_iff.1 hx
    refine ⟨[], T, h, by simpa using hys', by simp, fun ar har fire procTick s k => Or.inl ?_⟩
    have hnext : T.link.next none = none := h.ring.next_head
    simp only [Timers.runTimers, hnext, ← hdue]
    rfl
  | cons x xs =>
    have hx1 : T.expires x.1.1 = x.2 := by
      rw [hx] at h
      exact h.deltas.1
    have hx0 : 0 < x.2 := hpos x (by rw [hx]; simp)
    -- the first difference is decremented, which counts everything one down
    have hdown : TimerList (T.setExpires x.1.1 (T.expires x.1.1 - 1)) K
        ((as ++ bs).map fun x => (x.1, x.2 - 1)) := by
      have hring := h.ring
      have hd := h.deltas
      refine ⟨?_, fun y hy => ?_, ?_, fun y hy => ?_, fun y hy => ?_, fun u hu hnu => ?_⟩
      · rw [List.map_map]
        exact hring
      · obtain ⟨z, hz, rfl⟩ := List.mem_map.1 hy
        exact h.proc z hz
      · rw [hx] at hd hring ⊢
        obtain ⟨-, hd⟩ := hd
        have hother := ring_ne (show Ring T.link none (([] ++ x :: xs).map node) from hring)
        refine ⟨by simp [hx1], ?_⟩
        have hd' : Deltas (fun k => T.expires k.1) (x.2 - 1 + 1) xs := by
          rwa [Nat.sub_add_cancel hx0]
        refine hd'.pred.congr fun y hy => ?_
        obtain ⟨z, hz, rfl⟩ := List.mem_map.1 hy
        simp [hother z (by simpa using hz)]
      · obtain ⟨z, hz, rfl⟩ := List.mem_map.1 hy
        have := h.bound z hz
        simp only
        omega
      · obtain ⟨z, hz, rfl⟩ := List.mem_map.1 hy
        exact h.known z hz
      · exact h.idle u hu fun z hz => hnu (z.1, z.2 - 1) (List.mem_map.2 ⟨z, hz, rfl⟩)
    rw [List.map_append] at hdown
    obtain ⟨T', h', -, hloop⟩ := hdown.expireLoop_spec (σ := σ) (fun a ha => by
      obtain ⟨z, hz, rfl⟩ := List.mem_map.1 ha
      simp [has z hz]) hpos'
    refine ⟨_, T', h', hys', hpos', fun ar har fire procTick s => ?_⟩
    have hfold : (as.map fun x => (x.1, x.2 - 1)).foldlM (fun s a => fire s a.1.1 a.1.2) s =
        (due ys).foldlM (fun s a => fire s a.1 a.2) s := by
      rw [← hdue, List.foldlM_map, List.foldlM_map]
    have hnext : T.link.next none = some x.1.1 := by
      have := h.ring.next_head
      rwa [hx] at this
    have := (hloop ar har fire s x.1.1 (by rw [← List.map_append, hx]; rfl)).bind
      fun r => Except.ok (r.1, procTick r.2)
    rw [hfold] at this
    have hlen : (as.map (fun (a : (τ × π) × ℕ) => (a.1, a.2 - 1)) ++
        bs.map fun (b : (τ × π) × ℕ) => (b.1, b.2 - 1)).length = (x :: xs).length := by
      rw [← List.map_append, List.length_map, hx]
    rw [hlen] at this
    have hrun : ∀ k, Timers.runTimers ar fire procTick k T s =
        (expireLoop ar fire k x.1.1 (T.setExpires x.1.1 (T.expires x.1.1 - 1)) s >>=
          fun r => Except.ok (r.1, procTick r.2)) := by
      intro k
      have hlt : T.expires x.1.1 < 2 ^ 32 := by
        rw [hx1]
        exact h.bound x (by rw [hx]; simp)
      simp only [Timers.runTimers, hnext, har.sub (show 1 ≤ T.expires x.1.1 by omega) hlt]
      rw [assert_of (by omega)]
      rfl
    simp only [hrun]
    intro k
    rcases this k with hk | hk
    · refine Or.inl (hk.trans ?_)
      cases (due ys).foldlM (fun s a => fire s a.1 a.2) s <;> rfl
    · exact Or.inr hk

/-! ### The functions as operations on countdowns -/

/-- A call of `add_timer` that returns. -/
theorem add_ok (h : TimerList T K xs) {ys : List ((τ × π) × ℕ)} (hys : ByDeadline xs ys)
    (hpos : ∀ x ∈ xs, 0 < x.2) {t : τ} (ht : ∀ x ∈ xs, x.1.1 ≠ t) {p : π} {e k : ℕ} (he : 0 < e)
    (hlt : e < 2 ^ 32) {T' : Timers τ π}
    (hk : Timers.addTimer u32Arith k (T.initTimer t p e) t = .ok T') :
    ∃ xs', TimerList T' (insert t K) xs' ∧ ByDeadline xs' (ys ++ [((t, p), e)]) ∧
      (∀ x ∈ xs', 0 < x.2) ∧ ∀ x, x ∈ xs' ↔ x ∈ xs ∨ x = ((t, p), e) := by
  obtain ⟨xs', T₁, h1, h2, h3⟩ := h.addTimer hys ht p he hlt
  obtain rfl : T₁ = T' := Except.ok.inj ((h3 _ u32Arith_exact).of_ok hk)
  have hmem : ∀ x, x ∈ xs' ↔ x ∈ xs ∨ x = ((t, p), e) := by
    intro x
    rw [h2.mem_iff, List.mem_append, List.mem_singleton, hys.mem_iff]
  refine ⟨xs', h1, h2, fun x hx => ?_, hmem⟩
  rcases (hmem x).1 hx with hx | rfl
  · exact hpos x hx
  · exact he

/-- A call of `del_timer` that returns. -/
theorem del_ok (h : TimerList T K xs) {t : τ} (ht : t ∈ K) {T' : Timers τ π}
    (hd : Timers.delTimer u32Arith T t = .ok T') :
    TimerList T' K (xs.filter fun x => !decide (x.1.1 = t)) := by
  by_cases hin : ∃ x ∈ xs, x.1.1 = t
  · obtain ⟨x, hx, rfl⟩ := hin
    obtain ⟨as, bs, rfl⟩ := List.append_of_mem hx
    obtain ⟨T₁, h1, -, h3⟩ := h.delTimer
    obtain rfl : T₁ = T' := Except.ok.inj ((h3 _ u32Arith_exact).symm.trans hd)
    have hne := ring_ne h.ring
    have hfilter : (as ++ x :: bs).filter (fun y => !decide (y.1.1 = x.1.1)) = as ++ bs := by
      rw [List.filter_append, List.filter_cons_of_neg (by simp), ← List.filter_append,
        List.filter_eq_self]
      intro y hy
      simpa using hne y hy
    rwa [hfilter]
  · have hne : ∀ x ∈ xs, x.1.1 ≠ t := fun x hx hxt => hin ⟨x, hx, hxt⟩
    rw [← Except.ok.inj ((h.delTimer_idle ht hne u32Arith).symm.trans hd)]
    rwa [List.filter_eq_self.2 (by simpa using fun a b c hx => hne ((a, b), c) hx)]

/-- A call of `run_timers` that returns. -/
theorem tick_ok (h : TimerList T K xs) {ys : List ((τ × π) × ℕ)} (hys : ByDeadline xs ys)
    (hpos : ∀ x ∈ xs, 0 < x.2) {fire : σ → τ → π → Res σ} {procTick : σ → σ} {k : ℕ} {s s' : σ}
    {T' : Timers τ π} (hk : Timers.runTimers u32Arith fire procTick k T s = .ok (T', s')) :
    ∃ xs', TimerList T' K xs' ∧ ByDeadline xs' (Op.tick.apply ys) ∧ (∀ x ∈ xs', 0 < x.2) ∧
      (∀ x, x ∈ xs' ↔ 0 < x.2 ∧ (x.1, x.2 + 1) ∈ xs) ∧
      ∃ s₁, (due ys).foldlM (fun s a => fire s a.1 a.2) s = .ok s₁ ∧ s' = procTick s₁ := by
  obtain ⟨xs', T₁, h1, h2, h3, h4⟩ := h.runTimers (σ := σ) hys hpos
  obtain ⟨s₁, hs₁, hok⟩ := bind_eq_ok.1 ((h4 _ u32Arith_exact fire procTick s).of_ok hk)
  obtain ⟨rfl, rfl⟩ := Prod.mk.inj (Except.ok.inj hok)
  refine ⟨xs', h1, h2, h3, fun x => ?_, s₁, hs₁, rfl⟩
  rw [h2.mem_iff, hys.mem_iff]
  simp only [Op.apply, List.mem_map, List.mem_filter, decide_eq_true_eq]
  constructor
  · rintro ⟨y, ⟨hy, hne⟩, rfl⟩
    have := hpos y (hys.mem_iff.2 hy)
    refine ⟨by simp only; omega, ?_⟩
    rwa [Nat.sub_add_cancel this]
  · rintro ⟨hx, hy⟩
    exact ⟨_, ⟨hy, by simp only; omega⟩, by simp⟩

end TimerList

end

/-! ### Runs -/

/-- The operations on timers. -/
inductive TimerOp (τ π : Type) where
  /-- `do_sleep` of the process `proc` initialises `timer` and calls `add_timer`. -/
  | add (timer : τ) (proc : π) (time : ℕ)
  /-- `del_timer` -/
  | del (timer : τ)
  /-- `run_timers`, which fired these timers with their processes, in this order. -/
  | tick (fired : List (τ × π))

/-- The timers, and what has been done with each. -/
structure TimerState (τ π : Type) where
  /-- The timers and their list. -/
  timers : Timers τ π
  /-- The timers that have been initialised. -/
  known : Set τ
  /-- The timers that have been added and neither deleted nor fired since. -/
  active : Set τ

/-- The processing of a fired timer, with a record of the timers fired. -/
def logFire (fire : σ → τ → π → Res σ) (s : σ × List (τ × π)) (t : τ) (p : π) :
    Res (σ × List (τ × π)) := do
  let s' ← fire s.1 t p
  return (s', s.2 ++ [(t, p)])

theorem foldlM_logFire (fire : σ → τ → π → Res σ) (l log : List (τ × π)) (s : σ) :
    l.foldlM (fun s a => logFire fire s a.1 a.2) (s, log) =
      (l.foldlM (fun s a => fire s a.1 a.2) s >>= fun s => .ok (s, log ++ l)) := by
  induction l generalizing s log with
  | nil => simp [pure, Except.pure]
  | cons a l ih =>
    simp only [List.foldlM_cons]
    cases hf : fire s a.1 a.2 with
    | error e => simp [logFire, hf]
    | ok s' =>
      have hlog : logFire fire (s, log) a.1 a.2 = .ok (s', log ++ [a]) := by
        simp only [logFire, hf, ok_bind]
        rfl
      rw [hlog, ok_bind, ih]
      simp

variable [DecidableEq τ]

/-- The calls of `add_timer`, `del_timer` and `run_timers` in any order.  A timer is a variable of
one call of `do_sleep`, so it is not added while it is active, and deleted only once it has been
initialised.  Whatever a tick finds and does in the rest of the kernel is `σ` and `fire`. -/
def timerSystem (fire : σ → τ → π → Res σ) (procTick : σ → σ) :
    System (TimerState τ π) (TimerOp τ π) where
  init s := (∃ L : Links (Option τ), s.timers.link = L.initList none) ∧ s.known = ∅ ∧ s.active = ∅
  step s op s' := match op with
    | .add t p e => t ∉ s.active ∧ 0 < e ∧ e < 2 ^ 32 ∧
        (∃ k, addTimer u32Arith k (s.timers.initTimer t p e) t = .ok s'.timers) ∧
        s'.known = insert t s.known ∧ s'.active = insert t s.active
    | .del t => t ∈ s.known ∧ delTimer u32Arith s.timers t = .ok s'.timers ∧
        s'.known = s.known ∧ s'.active = s.active \ {t}
    | .tick fired => (∃ k s₀ s₁, runTimers u32Arith (logFire fire) (fun s => (procTick s.1, s.2)) k
          s.timers (s₀, []) = .ok (s'.timers, (s₁, fired))) ∧
        s'.known = s.known ∧ s'.active = s.active \ {t | ∃ p, (t, p) ∈ fired}

/-- What an operation does to the countdowns. -/
def TimerOp.countdownOp : TimerOp τ π → Op (τ × π)
  | .add t p e => .add (t, p) e
  | .del t => .del fun k => k.1 = t
  | .tick _ => .tick

/-- The timer list holds the countdowns that the operations so far have left running. -/
structure TimersOk (ls : List (TimerOp τ π)) (s : TimerState τ π)
    (xs : List ((τ × π) × ℕ)) : Prop where
  list : TimerList s.timers s.known xs
  pending : ByDeadline xs (pending (ls.map TimerOp.countdownOp))
  pos : ∀ x ∈ xs, 0 < x.2
  active : ∀ t, t ∈ s.active ↔ ∃ x ∈ xs, x.1.1 = t

variable {fire : σ → τ → π → Res σ} {procTick : σ → σ} {ls : List (TimerOp τ π)}
  {s : TimerState τ π}

theorem TimersOk.active_pending {xs : List ((τ × π) × ℕ)} (h : TimersOk ls s xs) (t : τ) :
    t ∈ s.active ↔ ∃ p r, ((t, p), r) ∈ Countdown.pending (ls.map TimerOp.countdownOp) := by
  rw [h.active]
  constructor
  · rintro ⟨x, hx, rfl⟩
    exact ⟨x.1.2, x.2, h.pending.mem_iff.1 hx⟩
  · rintro ⟨p, r, hx⟩
    exact ⟨_, h.pending.mem_iff.2 hx, rfl⟩

theorem run_timersOk (h : (timerSystem fire procTick).Run ls s) : ∃ xs, TimersOk ls s xs := by
  induction h with
  | start h =>
    obtain ⟨⟨L, hL⟩, hK, hA⟩ := h
    refine ⟨[], ⟨?_, by simp, trivial, by simp, by simp, by simp [hK]⟩, .nil, by simp, by simp [hA]⟩
    rw [hL]
    exact Ring.initList_nil L none
  | @step ls s s' op _ hstep ih =>
    obtain ⟨xs, hlist, hpend, hpos, hact⟩ := ih
    have hmap : pending ((ls ++ [op]).map TimerOp.countdownOp) =
        op.countdownOp.apply (pending (ls.map TimerOp.countdownOp)) := by
      rw [List.map_append, List.map_singleton, pending_concat]
    cases op with
    | add t p e =>
      obtain ⟨hna, he, hlt, ⟨k, hk⟩, hK, hA⟩ := hstep
      have ht : ∀ x ∈ xs, x.1.1 ≠ t := fun x hx hxt => hna ((hact t).2 ⟨x, hx, hxt⟩)
      obtain ⟨xs', h1, h2, h3, hmem⟩ := hlist.add_ok hpend hpos ht he hlt hk
      refine ⟨xs', by rwa [hK], by rwa [hmap], h3, fun u => ?_⟩
      rw [hA, Set.mem_insert_iff, hact]
      simp only [hmem]
      constructor
      · rintro (rfl | ⟨x, hx, rfl⟩)
        · exact ⟨_, Or.inr rfl, rfl⟩
        · exact ⟨x, Or.inl hx, rfl⟩
      · rintro ⟨x, hx | rfl, rfl⟩
        · exact Or.inr ⟨x, hx, rfl⟩
        · exact Or.inl rfl
    | del t =>
      obtain ⟨ht, hd, hK, hA⟩ := hstep
      have hact' : ∀ u, u ∈ s'.active ↔
          ∃ x ∈ xs.filter fun x => !decide (x.1.1 = t), x.1.1 = u := by
        intro u
        rw [hA, Set.mem_sdiff, Set.mem_singleton_iff, hact]
        simp only [List.mem_filter, Bool.not_eq_true', decide_eq_false_iff_not]
        constructor
        · rintro ⟨⟨x, hx, rfl⟩, hne⟩
          exact ⟨x, ⟨hx, hne⟩, rfl⟩
        · rintro ⟨x, ⟨hx, hne⟩, rfl⟩
          exact ⟨⟨x, hx, rfl⟩, hne⟩
      refine ⟨xs.filter fun x => !decide (x.1.1 = t), ?_, ?_,
        fun x hx => hpos x (List.mem_of_mem_filter hx), hact'⟩
      · rw [hK]
        exact hlist.del_ok ht hd
      · rw [hmap]
        exact hpend.filter _
    | tick fired =>
      obtain ⟨⟨k, s₀, s₁, hk⟩, hK, hA⟩ := hstep
      obtain ⟨xs', h1, h2, h3, hxs', r, hr, hok⟩ := hlist.tick_ok hpend hpos hk
      rw [foldlM_logFire, List.nil_append] at hr
      obtain ⟨s₂, -, hr⟩ := bind_eq_ok.1 hr
      obtain rfl := Except.ok.inj hr
      obtain ⟨-, rfl⟩ := Prod.mk.inj hok
      refine ⟨xs', by rwa [hK], by rwa [hmap], h3, fun u => ?_⟩
      rw [hA, Set.mem_sdiff, hact, Set.mem_ofPred_eq]
      constructor
      · rintro ⟨⟨x, hx, rfl⟩, hnf⟩
        have hx0 := hpos x hx
        have hx1 : x.2 ≠ 1 := fun he => hnf ⟨x.1.2, mem_due.2 (hpend.mem_iff.1 (he ▸ hx))⟩
        refine ⟨(x.1, x.2 - 1), (hxs' _).2 ⟨by simp only; omega, ?_⟩, rfl⟩
        rwa [Nat.sub_add_cancel hx0]
      · rintro ⟨x, hx, rfl⟩
        obtain ⟨h5, h6⟩ := (hxs' x).1 hx
        refine ⟨⟨_, h6, rfl⟩, ?_⟩
        rintro ⟨p, hp⟩
        have := ring_inj hlist.ring h6 (hpend.mem_iff.2 (mem_due.1 hp)) rfl
        have := congrArg Prod.snd this
        simp only at this
        omega

/-- The operations `ls` neither add nor delete the timer `t`. -/
def Untouched (t : τ) (ls : List (TimerOp τ π)) : Prop :=
  (∀ p e, TimerOp.add t p e ∉ ls) ∧ TimerOp.del t ∉ ls

/-- The number of calls of `run_timers` among `ls`. -/
def tickCount (ls : List (TimerOp τ π)) : ℕ := ls.countP fun | .tick _ => true | _ => false

theorem ticks_countdownOp (ls : List (TimerOp τ π)) :
    ticks (ls.map TimerOp.countdownOp) = tickCount ls := by
  induction ls with
  | nil => rfl
  | cons op ls ih =>
    simp only [ticks, tickCount] at ih
    cases op <;> simp [ticks, tickCount, TimerOp.countdownOp, ih]

theorem Untouched.countdownOp {t : τ} (h : Untouched t ls) (p : π) :
    Countdown.Untouched (t, p) (ls.map TimerOp.countdownOp) := by
  refine ⟨fun e he => ?_, fun q hq => ?_⟩
  · obtain ⟨op, hop, he⟩ := List.mem_map.1 he
    cases op with
    | add u q d =>
      obtain ⟨⟨rfl, rfl⟩, rfl⟩ : (u = t ∧ q = p) ∧ d = e := by
        simpa [TimerOp.countdownOp] using he
      exact h.1 _ _ hop
    | del u => simp [TimerOp.countdownOp] at he
    | tick f => simp [TimerOp.countdownOp] at he
  · obtain ⟨op, hop, he⟩ := List.mem_map.1 hq
    cases op with
    | add u q d => simp [TimerOp.countdownOp] at he
    | del u =>
      obtain rfl : (fun k : τ × π => decide (k.1 = u)) = q := by simpa [TimerOp.countdownOp] using he
      have hut : t ≠ u := fun hut => h.2 (hut ▸ hop)
      simpa using hut
    | tick f => simp [TimerOp.countdownOp] at he

/-- Each tick of a run fires the timers that are due, and a timer that is added is not running. -/
theorem run_due (h : (timerSystem fire procTick).Run ls s) :
    (∀ l₁ f l₂, ls = l₁ ++ .tick f :: l₂ → f = due (pending (l₁.map TimerOp.countdownOp))) ∧
      ∀ l₁ t p e l₂, ls = l₁ ++ .add t p e :: l₂ → 0 < e ∧
        ∀ q r, ((t, q), r) ∉ pending (l₁.map TimerOp.countdownOp) := by
  refine ⟨?_, ?_⟩
  · rintro l₁ f l₂ rfl
    obtain ⟨s₁, s₂, hr, ⟨k, u₀, u₁, hk⟩, -⟩ := h.split
    obtain ⟨xs, hlist, hpend, hpos, -⟩ := run_timersOk hr
    obtain ⟨xs', T', -, -, -, h4⟩ := hlist.runTimers (σ := σ × List (τ × π)) hpend hpos
    have hok := (h4 _ u32Arith_exact (logFire fire) _ _).of_ok hk
    rw [foldlM_logFire, List.nil_append] at hok
    obtain ⟨r, hr, hok⟩ := bind_eq_ok.1 hok
    obtain ⟨u₂, -, hr⟩ := bind_eq_ok.1 hr
    obtain rfl := Except.ok.inj hr
    exact (Prod.mk.inj (Prod.mk.inj (Except.ok.inj hok)).2).2.symm
  · rintro l₁ t p e l₂ rfl
    obtain ⟨s₁, s₂, hr, hna, he, -⟩ := h.split
    obtain ⟨xs, hok⟩ := run_timersOk hr
    exact ⟨he, fun q r hm => hna ((hok.active_pending t).2 ⟨q, r, hm⟩)⟩

/-- **The delta-encoded timer list refines a set of countdowns.**  In every run of `add_timer`,
`del_timer` and `run_timers`, a timer added with `e` ticks and neither deleted nor added again is
fired, with its process, by the `e`-th tick that follows and by no other; timers that a tick fires
are fired in the order they were added.  In the state reached every further operation succeeds,
with the same outcome whether or not the arithmetic on `expires` may wrap; only the processing of
a fired timer can make a tick fail. -/
theorem timers_refine_countdowns (fire : σ → τ → π → Res σ) (procTick : σ → σ)
    {ls : List (TimerOp τ π)} {s : TimerState τ π} (h : (timerSystem fire procTick).Run ls s) :
    (∀ l₁ t p e l₂ f l₃, ls = l₁ ++ .add t p e :: l₂ ++ .tick f :: l₃ → Untouched t l₂ →
      ∀ q, (t, q) ∈ f ↔ q = p ∧ tickCount l₂ + 1 = e) ∧
    (∀ l₁ t p e l₂ t' p' e' l₃ f l₄,
      ls = l₁ ++ .add t p e :: l₂ ++ .add t' p' e' :: l₃ ++ .tick f :: l₄ → t ≠ t' →
      Untouched t l₃ → Untouched t' l₃ → (t, p) ∈ f → (t', p') ∈ f →
      [(t, p), (t', p')].Sublist f) ∧
    (∀ t p e, t ∉ s.active → 0 < e → e < 2 ^ 32 → ∃ T' n, ∀ ar : Arith, ar.Exact → ∀ k, n < k →
      addTimer ar k (s.timers.initTimer t p e) t = .ok T') ∧
    (∀ t ∈ s.known, ∃ T', ∀ ar : Arith, ar.Exact → delTimer ar s.timers t = .ok T') ∧
    ∃ T' n, ∀ ar : Arith, ar.Exact → ∀ k, n < k → ∀ u : σ,
      runTimers ar fire procTick k s.timers u =
        ((due (pending (ls.map TimerOp.countdownOp))).foldlM (fun u a => fire u a.1 a.2) u >>=
          fun u => .ok (T', procTick u)) := by
  obtain ⟨htick, hadd⟩ := run_due h
  obtain ⟨xs, hlist, hpend, hpos, hact⟩ := run_timersOk h
  refine ⟨?_, ?_, ?_, ?_, ?_⟩
  · intro l₁ t p e l₂ f l₃ hls hun q
    obtain ⟨he, hnew⟩ := hadd l₁ t p e (l₂ ++ .tick f :: l₃) (by simp [hls])
    rw [htick (l₁ ++ .add t p e :: l₂) f l₃ hls, List.map_append, List.map_cons]
    by_cases hq : q = p
    · subst hq
      have := mem_due_iff (hnew q) he (hun.countdownOp q)
      rw [ticks_countdownOp] at this
      simpa [TimerOp.countdownOp] using this
    · simp only [hq, false_and, iff_false, mem_due]
      refine notMem_pending (hnew q) (fun d hd => ?_) 1
      rcases List.mem_cons.1 hd with hd | hd
      · simp [TimerOp.countdownOp, hq] at hd
      · exact (hun.countdownOp q).1 d hd
  · intro l₁ t p e l₂ t' p' e' l₃ f l₄ hls hne hun hun' hm hm'
    obtain ⟨-, hnew⟩ := hadd (l₁ ++ .add t p e :: l₂) t' p' e' (l₃ ++ .tick f :: l₄)
      (by simp [hls])
    rw [htick _ f l₄ hls] at hm hm' ⊢
    simp only [List.map_append, List.map_cons] at hm hm' hnew ⊢
    exact due_sublist (hnew p') (by simp [hne]) (hun.countdownOp p) (hun'.countdownOp p') hm hm'
  · intro t p e hna he hlt
    have ht : ∀ x ∈ xs, x.1.1 ≠ t := fun x hx hxt => hna ((hact t).2 ⟨x, hx, hxt⟩)
    obtain ⟨-, T', -, -, h3⟩ := hlist.addTimer hpend ht p he hlt
    exact ⟨T', xs.length, fun ar har k hk => (h3 ar har).of_lt hk⟩
  · intro t ht
    by_cases hin : ∃ x ∈ xs, x.1.1 = t
    · obtain ⟨x, hx, rfl⟩ := hin
      obtain ⟨as, bs, rfl⟩ := List.append_of_mem hx
      obtain ⟨T', -, -, h3⟩ := hlist.delTimer
      exact ⟨T', h3⟩
    · exact ⟨s.timers, fun ar _ => hlist.delTimer_idle ht (fun x hx hxt => hin ⟨x, hx, hxt⟩) ar⟩
  · obtain ⟨-, T', -, -, -, h4⟩ := hlist.runTimers (σ := σ) hpend hpos
    exact ⟨T', xs.length, fun ar har k hk u => (h4 ar har fire procTick u).of_lt hk⟩

/-- Two timers of two ticks, the second one added after a tick: the first one fires alone. -/
theorem timers_refine_countdowns_two : ∃ s,
    (timerSystem (fun (n : ℕ) (_ : Bool) (_ : ℕ) => .ok (n + 1)) id).Run
      [.add true 7 2, .tick [], .add false 8 2, .tick [(true, 7)]] s ∧
    ((true, 7) ∈ [(true, 7)] ↔ 7 = 7 ∧ tickCount ([.tick [], .add false 8 2] :
      List (TimerOp Bool ℕ)) + 1 = 2) := by
  let A := timerSystem (fun (n : ℕ) (_ : Bool) (_ : ℕ) => .ok (n + 1)) id
  have h₀ : A.Run [] ⟨⟨fun _ => 0, fun _ => 0, (Links.mk id id).initList none⟩, ∅, ∅⟩ :=
    .start ⟨⟨_, rfl⟩, rfl, rfl⟩
  have h₁ : A.Run [.add true 7 2] ⟨_, _, _⟩ :=
    h₀.step ⟨by simp, by decide, by decide, ⟨1, rfl⟩, rfl, rfl⟩
  have h₂ : A.Run [.add true 7 2, .tick []] ⟨_, _, _⟩ := h₁.step ⟨⟨1, 0, 0, rfl⟩, rfl, rfl⟩
  have h₃ : A.Run [.add true 7 2, .tick [], .add false 8 2] ⟨_, _, _⟩ :=
    h₂.step ⟨by simp, by decide, by decide, ⟨2, rfl⟩, rfl, rfl⟩
  have h₄ : A.Run [.add true 7 2, .tick [], .add false 8 2, .tick [(true, 7)]] ⟨_, _, _⟩ :=
    h₃.step ⟨⟨2, 0, 1, rfl⟩, rfl, rfl⟩
  exact ⟨_, h₄, (timers_refine_countdowns _ _ h₄).1 [] true 7 2 [.tick [], .add false 8 2]
    [(true, 7)] [] rfl ⟨by simp, by simp⟩ 7⟩

end Timers

end GarretOS
