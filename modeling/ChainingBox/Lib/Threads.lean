import ChainingBox.Lib.Runs

/-!
# Threads over a shared state

Threads whose next step depends on what they find in a state that they share, under any scheduler. A
`World` is the shared state with the threads, a schedule is the list of the threads that make their
next step, one after another, and a run is the `run` of the schedule.

Facts about a world come from facts about one step of one thread. `tally` adds up a number over the
threads, which changes as that of the thread that makes the step (`tally_step`). If a rank of the
threads goes down with each of their steps, every world has a schedule that runs all threads to their
end (`exists_schedule`).
-/

namespace ChainingBox.Lib

/-- A shared state with the threads that work on it. -/
structure World (σ τ : Type) where
  shared : σ
  threads : List τ

namespace World

variable {σ τ : Type} (step : σ → τ → σ × τ)

/-- A thread makes its next step. -/
def next (w : World σ τ) (i : ℕ) : World σ τ :=
  match w.threads[i]? with
  | none => w
  | some t => ⟨(step w.shared t).1, w.threads.set i (step w.shared t).2⟩

variable {step} {w : World σ τ} {i : ℕ} {t : τ}

theorem next_of_none (h : w.threads[i]? = none) : w.next step i = w := by
  unfold next
  rw [h]

theorem next_of_some (h : w.threads[i]? = some t) :
    w.next step i = ⟨(step w.shared t).1, w.threads.set i (step w.shared t).2⟩ := by
  unfold next
  rw [h]

variable (step) in
/-- The shared state after a step. -/
theorem shared_next (h : w.threads[i]? = some t) :
    (w.next step i).shared = (step w.shared t).1 := by
  rw [next_of_some h]

variable (step) in
/-- The thread that has made its step. -/
theorem getElem?_next_self (h : w.threads[i]? = some t) :
    (w.next step i).threads[i]? = some (step w.shared t).2 := by
  obtain ⟨hi, -⟩ := List.getElem?_eq_some_iff.1 h
  rw [next_of_some h]
  exact List.getElem?_set_self hi

variable (step) in
/-- The other threads. -/
theorem getElem?_next_ne {j : ℕ} (h : i ≠ j) : (w.next step i).threads[j]? = w.threads[j]? := by
  cases hi : w.threads[i]? with
  | none => rw [next_of_none hi]
  | some t =>
    rw [next_of_some hi]
    exact List.getElem?_set_ne h

/-- A thread after a step is the one that has made it, or one of those before it. -/
theorem mem_next (h : w.threads[i]? = some t) {u : τ} (hu : u ∈ (w.next step i).threads) :
    u = (step w.shared t).2 ∨ u ∈ w.threads := by
  rw [next_of_some h] at hu
  exact (List.mem_or_eq_of_mem_set hu).symm

/-- A part of the threads that no step changes. -/
theorem map_next {ω : Type} {f : τ → ω} (hf : ∀ s t, f (step s t).2 = f t) (w : World σ τ) (i : ℕ) :
    (w.next step i).threads.map f = w.threads.map f := by
  cases hi : w.threads[i]? with
  | none => rw [next_of_none hi]
  | some t =>
    obtain ⟨hlt, hget⟩ := List.getElem?_eq_some_iff.1 hi
    have hlt' : i < (w.threads.map f).length := by rwa [List.length_map]
    have hsame : f t = (w.threads.map f)[i] := by rw [List.getElem_map, hget]
    rw [next_of_some hi, List.map_set, hf, hsame]
    exact List.set_getElem_self hlt'

/-- A thread that makes several steps without interruption. -/
theorem run_replicate (h : w.threads[i]? = some t) (n : ℕ) :
    run (next step) w (List.replicate n i) =
      ⟨((fun p => step p.1 p.2)^[n] (w.shared, t)).1,
        w.threads.set i ((fun p => step p.1 p.2)^[n] (w.shared, t)).2⟩ := by
  induction n generalizing w t with
  | zero =>
    obtain ⟨hi, hget⟩ := List.getElem?_eq_some_iff.1 h
    show w = ⟨w.shared, w.threads.set i t⟩
    rw [← hget, List.set_getElem_self]
  | succ n ih =>
    have hrest := ih (getElem?_next_self step h)
    rw [next_of_some h] at hrest
    rw [List.replicate_succ, Function.iterate_succ_apply]
    show run (next step) (w.next step i) _ = _
    rw [next_of_some h, hrest]
    exact congrArg (World.mk _) (List.set_set _)

/-! ## Numbers over all threads -/

/-- The sum of a number that each thread has. -/
def tally (f : τ → ℕ) (w : World σ τ) : ℕ := (w.threads.map f).sum

theorem sum_map_set (f : τ → ℕ) {l : List τ} (h : l[i]? = some t) (t' : τ) :
    ((l.set i t').map f).sum + f t = (l.map f).sum + f t' := by
  induction l generalizing i with
  | nil => simp at h
  | cons u l ih =>
    cases i with
    | zero =>
      obtain rfl : u = t := by simpa using h
      simp only [List.set_cons_zero, List.map_cons, List.sum_cons]
      omega
    | succ i =>
      have hrest := ih (by simpa using h)
      simp only [List.set_cons_succ, List.map_cons, List.sum_cons]
      omega

variable (step) in
/-- A step changes a sum as it changes the number of its thread. -/
theorem tally_next (f : τ → ℕ) (h : w.threads[i]? = some t) :
    (w.next step i).tally f + f t = w.tally f + f (step w.shared t).2 := by
  rw [next_of_some h]
  exact sum_map_set f h _

/-- A world in which every thread that is not done goes down in rank with each step has a schedule
that ends with all threads done. -/
theorem exists_schedule {rank : τ → ℕ} (hrank : ∀ s t, rank t ≠ 0 → rank (step s t).2 < rank t)
    (w : World σ τ) : ∃ is, ∀ t ∈ (run (next step) w is).threads, rank t = 0 := by
  by_cases hdone : ∀ t ∈ w.threads, rank t = 0
  · exact ⟨[], hdone⟩
  · push Not at hdone
    obtain ⟨t, ht, hpos⟩ := hdone
    obtain ⟨i, hi⟩ := List.getElem?_of_mem ht
    have hdown := tally_next step rank hi
    have hlt := hrank w.shared t hpos
    obtain ⟨is, his⟩ := exists_schedule hrank (w.next step i)
    exact ⟨i :: is, his⟩
termination_by w.tally rank
decreasing_by omega

end World

end ChainingBox.Lib
