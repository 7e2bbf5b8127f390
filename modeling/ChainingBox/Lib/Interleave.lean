import ChainingBox.Lib.BoundedMap

/-!
# Threads that write to a table

Several threads, each with its own steps in order, run under any scheduler. `Interleaves ts tr` says
that `tr` is the order in which the steps of the threads `ts` came: at each point some thread made
its next one. A trace is a permutation of all steps, the threads one after another are a trace, and
so are the threads with any one of them last.

When the steps are writes to a table that has room for all keys, the entry of a key is the last value
that the trace writes to it, and that is the last value that some thread writes. So the table does
not depend on the scheduler if and only if all threads that write to a key leave the same value
(`lookup_eq_of_sameLast`, `sameLast_of_lookup_eq`).
-/

namespace ChainingBox.Lib

/-- At each point of the trace some thread makes its next step, until all threads are done. -/
inductive Interleaves {α : Type} : List (List α) → List α → Prop
  | done {ts : List (List α)} (h : ∀ t ∈ ts, t = []) : Interleaves ts []
  | step {ts₁ ts₂ : List (List α)} {a : α} {t tr : List α}
      (h : Interleaves (ts₁ ++ t :: ts₂) tr) : Interleaves (ts₁ ++ (a :: t) :: ts₂) (a :: tr)

namespace Interleaves

variable {α β : Type} {ts : List (List α)} {tr : List α}

/-- A trace has exactly the steps of the threads. -/
theorem perm (h : Interleaves ts tr) : tr.Perm ts.flatten := by
  induction h with
  | done h =>
    rw [List.flatten_eq_nil_iff.2 h]
  | @step ts₁ ts₂ a t tr _ ih =>
    have hsplit (t : List α) : (ts₁ ++ t :: ts₂).flatten = ts₁.flatten ++ (t ++ ts₂.flatten) := by
      rw [List.flatten_append, List.flatten_cons]
    rw [hsplit] at ih
    rw [hsplit, List.cons_append]
    exact (ih.cons a).trans List.perm_middle.symm

/-- The order in which the threads are listed does not matter. -/
theorem perm_threads (h : Interleaves ts tr) {ts' : List (List α)} (hp : ts.Perm ts') :
    Interleaves ts' tr := by
  induction h generalizing ts' with
  | done h => exact .done fun t ht => h t (hp.mem_iff.2 ht)
  | @step ts₁ ts₂ a t tr _ ih =>
    have hmem : a :: t ∈ ts' := hp.mem_iff.1 (List.mem_append_right ts₁ List.mem_cons_self)
    obtain ⟨u₁, u₂, rfl⟩ := List.append_of_mem hmem
    -- Without the thread that makes the step, the lists are permutations of each other.
    have hrest : (ts₁ ++ ts₂).Perm (u₁ ++ u₂) :=
      ((List.perm_middle.symm.trans hp).trans List.perm_middle).cons_inv
    refine .step (ih ?_)
    exact (List.perm_middle.trans (hrest.cons t)).trans List.perm_middle.symm

/-- A thread without steps can be added. -/
theorem nil_cons (h : Interleaves ts tr) : Interleaves ([] :: ts) tr := by
  induction h with
  | done h => exact .done fun t ht => (List.mem_cons.1 ht).elim id (h t)
  | @step ts₁ ts₂ a t tr _ ih => exact @Interleaves.step α ([] :: ts₁) ts₂ a t tr ih

/-- The threads one after another. -/
theorem flatten (ts : List (List α)) : Interleaves ts ts.flatten := by
  induction ts with
  | nil => exact .done fun t ht => absurd ht List.not_mem_nil
  | cons t ts ih =>
    rw [List.flatten_cons]
    induction t with
    | nil => exact ih.nil_cons
    | cons a t iht => exact @Interleaves.step α [] ts a t _ iht

/-- One thread after all the others. -/
theorem last (ts₁ ts₂ : List (List α)) (t : List α) :
    Interleaves (ts₁ ++ t :: ts₂) ((ts₁ ++ ts₂).flatten ++ t) := by
  have hflat : (ts₁ ++ ts₂).flatten ++ t = (ts₁ ++ ts₂ ++ [t]).flatten := by
    simp only [List.flatten_append, List.flatten_cons, List.flatten_nil, List.append_nil]
  rw [hflat]
  exact (flatten _).perm_threads ((List.perm_append_singleton t _).trans List.perm_middle.symm)

/-- The steps of one kind. -/
theorem filterMap (f : α → Option β) (h : Interleaves ts tr) :
    Interleaves (ts.map (List.filterMap f)) (tr.filterMap f) := by
  induction h with
  | done h =>
    refine .done fun t ht => ?_
    obtain ⟨t', ht', rfl⟩ := List.mem_map.1 ht
    rw [h t' ht', List.filterMap_nil]
  | @step ts₁ ts₂ a t tr _ ih =>
    rw [List.map_append, List.map_cons] at ih ⊢
    cases hf : f a with
    | none =>
      rw [List.filterMap_cons_none hf, List.filterMap_cons_none hf]
      exact ih
    | some b =>
      rw [List.filterMap_cons_some hf, List.filterMap_cons_some hf]
      exact .step ih

end Interleaves

/-! ## Writes to a table -/

namespace BoundedMap

variable {κ α : Type} {cap : ℕ} [DecidableEq κ] {ts : List (List (κ × α))}

/-- The last value that a trace writes to a key is the last that some thread writes to it. -/
theorem exists_lastValue_thread {tr : List (κ × α)} (h : Interleaves ts tr) {k : κ} {v : α}
    (hv : lastValue tr k = some v) : ∃ t ∈ ts, lastValue t k = some v := by
  induction h with
  | done h => simp [lastValue] at hv
  | @step ts₁ ts₂ p t tr h ih =>
    rw [lastValue_cons] at hv
    cases htr : lastValue tr k with
    | some w =>
      rw [htr, Option.some_or] at hv
      obtain ⟨t', ht', hlast⟩ := ih (htr.trans hv)
      rcases List.mem_append.1 ht' with hmem | hmem
      · exact ⟨t', List.mem_append_left _ hmem, hlast⟩
      · rcases List.mem_cons.1 hmem with rfl | hmem
        · refine ⟨p :: t', List.mem_append_right _ List.mem_cons_self, ?_⟩
          rw [lastValue_cons, hlast, Option.some_or]
        · exact ⟨t', List.mem_append_right _ (List.mem_cons_of_mem _ hmem), hlast⟩
    | none =>
      -- The rest of the trace does not write to the key, so neither does the rest of the thread.
      rw [htr, Option.none_or] at hv
      have hnone : lastValue t k = none := by
        by_contra hne
        have hkey : k ∈ t.map Prod.fst := exists_lastValue.1 (Option.ne_none_iff_exists'.1 hne)
        obtain ⟨q, hq, rfl⟩ := List.mem_map.1 hkey
        have hmem : q ∈ tr := h.perm.mem_iff.2
          (List.mem_flatten.2 ⟨t, List.mem_append_right _ List.mem_cons_self, hq⟩)
        obtain ⟨w, hw⟩ := exists_lastValue.2 (List.mem_map.2 ⟨q, hmem, rfl⟩)
        rw [htr] at hw
        exact absurd hw (by simp)
      refine ⟨p :: t, List.mem_append_right _ List.mem_cons_self, ?_⟩
      rw [lastValue_cons, hnone, Option.none_or]
      exact hv

/-- All threads that write to a key leave the same value. -/
def SameLast (ts : List (List (κ × α))) : Prop :=
  ∀ k v w, ∀ t ∈ ts, ∀ t' ∈ ts, lastValue t k = some v → lastValue t' k = some w → v = w

/-- It is enough to compare the keys that are written. -/
theorem sameLast_iff : SameLast ts ↔ ∀ t ∈ ts, ∀ t' ∈ ts, ∀ p ∈ t, p.1 ∈ t'.map Prod.fst →
    lastValue t p.1 = lastValue t' p.1 := by
  constructor
  · intro h t ht t' ht' p hp hmem
    obtain ⟨v, hv⟩ := exists_lastValue.2 (List.mem_map.2 ⟨p, hp, rfl⟩)
    obtain ⟨w, hw⟩ := exists_lastValue.2 hmem
    rw [hv, hw, h p.1 v w t ht t' ht' hv hw]
  · intro h k v w t ht t' ht' hv hw
    have heq := h t ht t' ht' (k, v) (mem_of_lastValue hv) (exists_lastValue.1 ⟨w, hw⟩)
    exact Option.some.inj (hv.symm.trans (heq.trans hw))

instance [DecidableEq α] (ts : List (List (κ × α))) : Decidable (SameLast ts) :=
  decidable_of_iff _ sameLast_iff.symm

variable {m : BoundedMap κ α cap} (hfit : m.AllFit ts.flatten)

include hfit

/-- If all threads that write to a key leave the same value, every trace leaves the entries that the
threads leave one after another. -/
theorem lookup_eq_of_sameLast (hsame : SameLast ts) {tr : List (κ × α)} (h : Interleaves ts tr)
    (k : κ) : (m.putAll tr).lookup k = (m.putAll ts.flatten).lookup k := by
  have hkeys : k ∈ tr.map Prod.fst ↔ k ∈ ts.flatten.map Prod.fst :=
    (h.perm.map Prod.fst).mem_iff
  have hlast : lastValue tr k = lastValue ts.flatten k := by
    cases htr : lastValue tr k with
    | none =>
      symm
      by_contra hne
      obtain ⟨v, hv⟩ := exists_lastValue.2
        (hkeys.2 (exists_lastValue.1 (Option.ne_none_iff_exists'.1 hne)))
      rw [htr] at hv
      exact absurd hv (by simp)
    | some v =>
      obtain ⟨w, hw⟩ := exists_lastValue.2 (hkeys.1 (exists_lastValue.1 ⟨v, htr⟩))
      obtain ⟨t, ht, hv'⟩ := exists_lastValue_thread h htr
      obtain ⟨t', ht', hw'⟩ := exists_lastValue_thread (Interleaves.flatten ts) hw
      rw [hw, hsame k v w t ht t' ht' hv' hw']
  rw [lookup_putAll_of_allFit (hfit.perm h.perm.symm), lookup_putAll_of_allFit hfit, hlast]

/-- If each trace with one thread last leaves the entries that the threads leave one after another,
all threads that write to a key leave the same value. -/
theorem sameLast_of_lookup_eq
    (hall : ∀ ts₁ t ts₂, ts = ts₁ ++ t :: ts₂ → ∀ k,
      (m.putAll ((ts₁ ++ ts₂).flatten ++ t)).lookup k = (m.putAll ts.flatten).lookup k) :
    SameLast ts := by
  -- The entry that the threads leave in order is the last value of every thread.
  have hentry (k : κ) (v : α) (t : List (κ × α)) (ht : t ∈ ts) (hv : lastValue t k = some v) :
      (m.putAll ts.flatten).lookup k = some v := by
    obtain ⟨ts₁, ts₂, hsplit⟩ := List.append_of_mem ht
    have htrace : m.AllFit ((ts₁ ++ ts₂).flatten ++ t) := by
      refine hfit.perm ?_
      rw [hsplit]
      exact (Interleaves.last ts₁ ts₂ t).perm.symm
    rw [← hall ts₁ t ts₂ hsplit k, lookup_putAll_of_allFit htrace, lastValue_append, hv,
      Option.some_or, Option.some_or]
  intro k v w t ht t' ht' hv hw
  have heq := (hentry k v t ht hv).symm.trans (hentry k w t' ht' hw)
  exact Option.some.inj heq

end BoundedMap

end ChainingBox.Lib
