import ChainingBox.Lib.Threads

/-!
# Schedules

Two rules for threads over a shared state, under every schedule.

`moves_le` bounds the number of steps that threads make before all of them are done, when each has a
level that its own steps lower and that a step of another thread raises at most below the level from
which that thread came (`Descends`). A step may raise the levels of all other threads, so the bound
is exponential: with `n` threads, one at level `l` weighs `(n + 1) ^ l`. Under a fair schedule all
threads are done in the end (`done_of_fair`).

`run_alone` says that a thread in a world makes the steps that it makes alone, when each thread has
a part of the shared state to itself (`Isolated`).
-/

namespace ChainingBox.Lib

namespace World

variable {σ τ ω : Type} {step : σ → τ → σ × τ}

/-! ## Levels -/

variable (step) in
/-- The number of steps of a schedule that threads make which are not done. -/
def moves (active : τ → Bool) : World σ τ → List ℕ → ℕ
  | _, [] => 0
  | w, i :: is => (if (w.threads[i]?).any active then 1 else 0) + moves active (w.next step i) is

/-- A thread that is done makes no more steps. Any other step leaves its thread done or at a lower
level, and raises the level of another thread at most below the one that it started from. -/
structure Descends (step : σ → τ → σ × τ) (active : τ → Bool) (level : σ → τ → ℕ) : Prop where
  idle : ∀ s t, active t = false → step s t = (s, t)
  self : ∀ s t, active t → active (step s t).2 → level (step s t).1 (step s t).2 < level s t
  other : ∀ s t, active t →
    ∀ u, level (step s t).1 u ≤ level s u ∨ level (step s t).1 u < level s t

/-- The weight of a thread among `n`. -/
def weight (active : τ → Bool) (level : σ → τ → ℕ) (n : ℕ) (s : σ) (t : τ) : ℕ :=
  if active t then (n + 1) ^ level s t else 0

/-- The weight of all threads. -/
def potential (active : τ → Bool) (level : σ → τ → ℕ) (w : World σ τ) : ℕ :=
  w.tally (weight active level w.threads.length w.shared)

theorem length_next (w : World σ τ) (i : ℕ) :
    (w.next step i).threads.length = w.threads.length := by
  cases h : w.threads[i]? with
  | none => rw [next_of_none h]
  | some t => rw [next_of_some h, List.length_set]

theorem length_run (w : World σ τ) (is : List ℕ) :
    (run (next step) w is).threads.length = w.threads.length :=
  @run_invariant _ _ (next step) (fun w' => w'.threads.length = w.threads.length)
    (fun w' i h => (length_next w' i).trans h) w rfl is

/-- A sum in which one element is replaced and the others grow by at most `c`. -/
theorem sum_map_set_le {f g : τ → ℕ} {c : ℕ} (hgrow : ∀ u, g u ≤ f u + c) {l : List τ} {i : ℕ}
    {t : τ} (h : l[i]? = some t) {t' : τ} (ht' : g t' ≤ c) :
    ((l.set i t').map g).sum + f t ≤ (l.map f).sum + l.length * c := by
  have hall (l : List τ) : (l.map g).sum ≤ (l.map f).sum + l.length * c := by
    calc (l.map g).sum ≤ (l.map fun u => f u + c).sum := List.sum_le_sum fun u _ => hgrow u
      _ = (l.map f).sum + l.length * c := by
        rw [List.sum_map_add, List.map_const', List.sum_replicate, smul_eq_mul]
  induction l generalizing i with
  | nil => simp at h
  | cons u l ih =>
    rw [List.length_cons, Nat.succ_mul]
    cases i with
    | zero =>
      obtain rfl : u = t := by simpa using h
      have hrest := hall l
      simp only [List.set_cons_zero, List.map_cons, List.sum_cons]
      omega
    | succ i =>
      have hrest := ih (by simpa using h)
      have hu := hgrow u
      simp only [List.set_cons_succ, List.map_cons, List.sum_cons]
      omega

section levels

variable {active : τ → Bool} {level : σ → τ → ℕ} (hlevel : Descends step active level)

include hlevel

/-- A step of a thread that is not done lowers the weight. -/
theorem potential_next_lt {w : World σ τ} {i : ℕ} {t : τ} (h : w.threads[i]? = some t)
    (ht : active t) :
    (w.next step i).potential active level < w.potential active level := by
  have hlen := @length_next _ _ step w i
  set n := w.threads.length with hn
  set l := level w.shared t with hl
  -- What other threads may gain is what remains of the weight of the one that makes the step.
  set c := if l = 0 then 0 else (n + 1) ^ (l - 1) with hc
  have hbelow {k : ℕ} (hk : k < l) : (n + 1) ^ k ≤ c := by
    rw [hc, if_neg (by omega)]
    exact Nat.pow_le_pow_right (Nat.succ_pos n) (by omega)
  have hgrow (u : τ) : weight active level n (step w.shared t).1 u ≤
      weight active level n w.shared u + c := by
    unfold weight
    by_cases hu : active u
    · rw [if_pos hu, if_pos hu]
      rcases hlevel.other w.shared t ht u with hle | hlt
      · exact (Nat.pow_le_pow_right (Nat.succ_pos n) hle).trans (Nat.le_add_right _ _)
      · exact (hbelow hlt).trans (Nat.le_add_left _ _)
    · rw [if_neg hu, if_neg hu]
      exact Nat.zero_le _
  have hnew : weight active level n (step w.shared t).1 (step w.shared t).2 ≤ c := by
    unfold weight
    split_ifs with ht'
    · exact hbelow (hlevel.self _ _ ht ht')
    · exact Nat.zero_le _
  have hsum := sum_map_set_le hgrow h hnew
  have hold : weight active level n w.shared t = (n + 1) ^ l := if_pos ht
  have hless : n * c < (n + 1) ^ l := by
    by_cases h0 : l = 0
    · rw [hc, if_pos h0, Nat.mul_zero]
      exact Nat.pow_pos (Nat.succ_pos n)
    · have hsucc : (n + 1) ^ l = (n + 1) ^ (l - 1) * (n + 1) := by
        rw [← Nat.pow_succ, Nat.succ_eq_add_one, Nat.sub_add_cancel (by omega)]
      have hpos : 0 < (n + 1) ^ (l - 1) := Nat.pow_pos (Nat.succ_pos n)
      rw [hc, if_neg h0, hsucc, Nat.mul_succ, Nat.mul_comm n]
      omega
  calc (w.next step i).potential active level
      = ((w.threads.set i (step w.shared t).2).map (weight active level n (step w.shared t).1)).sum := by
        rw [potential, tally, hlen, shared_next step h, next_of_some h]
    _ < (w.threads.map (weight active level n w.shared)).sum := by
        rw [hold, ← hn] at hsum
        omega

/-- A step does not raise the weight. -/
theorem potential_next_le (w : World σ τ) (i : ℕ) :
    (w.next step i).potential active level ≤ w.potential active level := by
  cases h : w.threads[i]? with
  | none => rw [next_of_none h]
  | some t =>
    by_cases ht : active t
    · exact (potential_next_lt hlevel h ht).le
    · obtain ⟨hi, hget⟩ := List.getElem?_eq_some_iff.1 h
      rw [next_of_some h, hlevel.idle _ _ (Bool.eq_false_of_not_eq_true ht), ← hget,
        List.set_getElem_self]

/-- Threads make at most as many steps as they weigh, until all are done. -/
theorem moves_le (w : World σ τ) (is : List ℕ) :
    moves step active w is ≤ w.potential active level := by
  induction is generalizing w with
  | nil => exact Nat.zero_le _
  | cons i is ih =>
    have hrest := ih (w.next step i)
    have hle := potential_next_le hlevel w i
    rw [moves]
    split_ifs with hmove
    · obtain ⟨t, h, ht⟩ := (Option.any_eq_true _ _).1 hmove
      have hlt := potential_next_lt hlevel h ht
      omega
    · omega

/-- Under a schedule in which every thread has its turn again and again, all threads are done from
some point on. -/
theorem done_of_fair (w : World σ τ) (sched : ℕ → ℕ)
    (hfair : ∀ i < w.threads.length, ∀ n, ∃ k, n ≤ k ∧ sched k = i) :
    ∃ n, ∀ m, n ≤ m → ∀ t ∈ (run (next step) w ((List.range m).map sched)).threads,
      active t = false := by
  set at_ : ℕ → World σ τ := fun n => run (next step) w ((List.range n).map sched) with hat
  have hsucc (n : ℕ) : at_ (n + 1) = (at_ n).next step (sched n) := by
    simp only [hat, List.range_succ, List.map_append, List.map_singleton]
    exact run_append ..
  -- From some point on the weight stays the same.
  obtain ⟨n, hmin⟩ : ∃ n, ∀ m, (at_ n).potential active level ≤ (at_ m).potential active level :=
    ⟨_, fun m => Function.argmin_le (fun n => (at_ n).potential active level) m⟩
  have hconst (m : ℕ) (hm : n ≤ m) :
      (at_ m).potential active level = (at_ n).potential active level := by
    induction m, hm using Nat.le_induction with
    | base => rfl
    | succ m _ ih =>
      refine le_antisymm ?_ (hmin _)
      rw [hsucc, ← ih]
      exact potential_next_le hlevel _ _
  refine ⟨n, fun m hm t ht => ?_⟩
  obtain ⟨i, hi⟩ := List.getElem?_of_mem ht
  by_contra hne
  rw [Bool.not_eq_false] at hne
  -- So a thread that is not done never makes a step, and remains as it is up to its next turn.
  have hstay (k : ℕ) (hk : m ≤ k) : (at_ k).threads[i]? = some t := by
    induction k, hk using Nat.le_induction with
    | base => exact hi
    | succ k hmk ih =>
      by_cases hturn : sched k = i
      · have hlt := potential_next_lt hlevel (hturn ▸ ih) hne
        rw [← hsucc, hconst k (hm.trans hmk), hconst (k + 1) (by omega)] at hlt
        exact absurd hlt (lt_irrefl _)
      · rw [hsucc, getElem?_next_ne step hturn]
        exact ih
  obtain ⟨hlt, -⟩ := List.getElem?_eq_some_iff.1 hi
  rw [length_run] at hlt
  obtain ⟨k, hk, hturn⟩ := hfair i hlt m
  have hlt := potential_next_lt hlevel (hturn.symm ▸ hstay k hk) hne
  rw [← hsucc, hconst k (hm.trans hk), hconst (k + 1) (by omega)] at hlt
  exact absurd hlt (lt_irrefl _)

end levels

/-! ## Parts of the shared state -/

/-- Each thread has a part of the shared state to itself: its steps depend on the rest of the state
no more than they change it. `Owned i` says of a thread that part `i` is its own, `view i` is what
is in the part, and `inv` is an invariant of the shared state. -/
structure Isolated {ν : Type} (step : σ → τ → σ × τ) (inv : σ → Prop) (Owned : ℕ → τ → Prop)
    (view : ℕ → σ → ν) : Prop where
  keeps : ∀ i s t, Owned i t → inv s → inv (step s t).1
  owned : ∀ i s t, Owned i t → inv s → Owned i (step s t).2
  agrees : ∀ i s s' t, Owned i t → inv s → inv s' → view i s = view i s' →
    (step s t).2 = (step s' t).2 ∧ view i (step s t).1 = view i (step s' t).1
  apart : ∀ i j s t, Owned j t → inv s → i ≠ j → view i (step s t).1 = view i s

/-- A thread may do something of its own before each step, as long as its part stays its own. -/
theorem Isolated.comp {ν : Type} {inv : σ → Prop} {Owned : ℕ → τ → Prop} {view : ℕ → σ → ν}
    (hiso : Isolated step inv Owned view) {g : τ → τ} (hg : ∀ i t, Owned i t → Owned i (g t)) :
    Isolated (fun s t => step s (g t)) inv Owned view where
  keeps := fun i s t howned => hiso.keeps i s (g t) (hg i t howned)
  owned := fun i s t howned => hiso.owned i s (g t) (hg i t howned)
  agrees := fun i s s' t howned => hiso.agrees i s s' (g t) (hg i t howned)
  apart := fun i j s t howned => hiso.apart i j s (g t) (hg j t howned)

variable (step) in
/-- What a thread shows before each of its steps. -/
def shown (out : τ → List ω) (i : ℕ) : World σ τ → List ℕ → List ω
  | _, [] => []
  | w, j :: is =>
    (if j = i then (w.threads[i]?).elim [] out else []) ++ shown out i (w.next step j) is

section isolated

variable {ν : Type} {inv : σ → Prop} {Owned : ℕ → τ → Prop} {view : ℕ → σ → ν}
  (hiso : Isolated step inv Owned view)

include hiso

/-- In a world whose threads have their parts, a thread comes as far as it does alone with as many
steps, shows the same, and leaves the same in its part. -/
theorem run_alone (out : τ → List ω) (is : List ℕ) {w : World σ τ} (hinv : inv w.shared)
    (howned : ∀ j u, w.threads[j]? = some u → Owned j u) {i : ℕ} {t : τ}
    (h : w.threads[i]? = some t) {s : σ} (hs : inv s) (hview : view i w.shared = view i s) :
    (run (next step) w is).threads[i]? =
        some ((fun p => step p.1 p.2)^[is.count i] (s, t)).2 ∧
      shown step out i w is =
        collect (fun p => step p.1 p.2) (fun p => out p.2) (is.count i) (s, t) ∧
      view i (run (next step) w is).shared =
        view i ((fun p => step p.1 p.2)^[is.count i] (s, t)).1 := by
  induction is generalizing w s t with
  | nil => exact ⟨h, rfl, hview⟩
  | cons j is ih =>
    have hrun : run (next step) w (j :: is) = run (next step) (w.next step j) is := rfl
    rw [hrun, shown]
    cases hj : w.threads[j]? with
    | none =>
      have hne : j ≠ i := by
        rintro rfl
        rw [h] at hj
        exact absurd hj (by simp)
      rw [next_of_none hj, if_neg hne, List.count_cons_of_ne hne]
      exact ih hinv howned h hs hview
    | some u =>
      have hu := howned j u hj
      have hinv' : inv (w.next step j).shared := by
        rw [shared_next step hj]
        exact hiso.keeps j _ _ hu hinv
      have howned' : ∀ k v, (w.next step j).threads[k]? = some v → Owned k v := by
        intro k v hv
        by_cases hk : j = k
        · subst hk
          rw [getElem?_next_self step hj] at hv
          rw [← Option.some.inj hv]
          exact hiso.owned j _ _ hu hinv
        · rw [getElem?_next_ne step hk] at hv
          exact howned k v hv
      by_cases hji : j = i
      · -- Its own step is the one that it makes alone.
        subst hji
        obtain rfl : t = u := Option.some.inj (h.symm.trans hj)
        obtain ⟨hthread, hpart⟩ := hiso.agrees j _ _ t hu hinv hs hview
        have hnext := getElem?_next_self step hj
        rw [hthread] at hnext
        rw [← shared_next step hj] at hpart
        obtain ⟨hend, hshown, hleft⟩ := ih hinv' howned' hnext (hiso.keeps j _ _ hu hs) hpart
        rw [List.count_cons_self, Function.iterate_succ_apply, if_pos rfl, h, hshown, collect]
        exact ⟨hend, rfl, hleft⟩
      · have hnext := @getElem?_next_ne _ _ step w j i hji
        have hpart := hiso.apart i j w.shared u hu hinv (Ne.symm hji)
        rw [← shared_next step hj] at hpart
        rw [if_neg hji, List.count_cons_of_ne hji]
        exact ih hinv' howned' (hnext.trans h) hs (hpart.trans hview)

end isolated

end World

end ChainingBox.Lib
