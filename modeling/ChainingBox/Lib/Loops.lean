import Mathlib

/-!
# Loops that can fail, and maps of appended lists

A loop whose rounds can fail is a `foldlM` in `Option`. `foldlM_some` and `foldlM_none` are its two
rules: if every round succeeds, the loop is a plain fold; if one round fails whatever state it is
entered in, the loop fails.

`Appends κ α` is a map of lists that is only ever appended to. It keeps the values in the order in
which they came, with their keys, so appending under a key is appending to the whole.
-/

namespace ChainingBox.Lib

variable {σ κ α β : Type}

/-- A loop all of whose rounds succeed. -/
theorem foldlM_some {f : σ → α → Option σ} {g : σ → α → σ} {l : List α}
    (h : ∀ x ∈ l, ∀ s, f s x = some (g s x)) (s : σ) : l.foldlM f s = some (l.foldl g s) := by
  induction l generalizing s with
  | nil => rfl
  | cons x l ih =>
    have hx := h x List.mem_cons_self s
    rw [List.foldlM_cons, hx, List.foldl_cons]
    exact ih (fun y hy => h y (List.mem_cons_of_mem x hy)) (g s x)

/-- A loop with a round that fails. -/
theorem foldlM_none {f : σ → α → Option σ} {l : List α} {x : α} (hx : x ∈ l)
    (h : ∀ s, f s x = none) (s : σ) : l.foldlM f s = none := by
  induction l generalizing s with
  | nil => simp at hx
  | cons y l ih =>
    rw [List.foldlM_cons]
    cases hy : f s y with
    | none => rfl
    | some s' =>
      rcases List.mem_cons.1 hx with rfl | hmem
      · rw [h s] at hy
        exact absurd hy (by simp)
      · exact ih hmem s'

/-- A loop that appends in every round, with two lists to append to. -/
theorem foldl_append_pair (f : α → List σ) (g : α → List β) (l : List α) (s : List σ × List β) :
    l.foldl (fun s x => (s.1 ++ f x, s.2 ++ g x)) s = (s.1 ++ l.flatMap f, s.2 ++ l.flatMap g) := by
  induction l generalizing s with
  | nil => simp
  | cons x l ih =>
    rw [List.foldl_cons, ih]
    simp only [List.flatMap_cons, List.append_assoc]

/-! ## Maps of appended lists -/

/-- A map from keys to lists of values, all appended one by one. -/
abbrev Appends (κ α : Type) := List (κ × α)

namespace Appends

variable [DecidableEq κ]

/-- The list under a key. -/
def get (m : Appends κ α) (k : κ) : List α := (m.filter fun p => p.1 = k).map Prod.snd

/-- The keys, each once. -/
def keys (m : Appends κ α) : List κ := (m.map Prod.fst).dedup

theorem nodup_keys (m : Appends κ α) : (keys m).Nodup := List.nodup_dedup _

theorem mem_keys {m : Appends κ α} {k : κ} : k ∈ keys m ↔ get m k ≠ [] := by
  unfold keys get
  rw [List.mem_dedup, List.mem_map, ne_eq, List.map_eq_nil_iff, List.filter_eq_nil_iff]
  push Not
  simp only [decide_eq_true_eq]

theorem mem_get {m : Appends κ α} {k : κ} {v : α} : v ∈ get m k ↔ (k, v) ∈ m := by
  unfold get
  rw [List.mem_map]
  constructor
  · rintro ⟨⟨k', v'⟩, hmem, rfl⟩
    obtain ⟨hm, hk⟩ := List.mem_filter.1 hmem
    obtain rfl : k' = k := by simpa using hk
    exact hm
  · intro hm
    exact ⟨(k, v), List.mem_filter.2 ⟨hm, by simp⟩, rfl⟩

/-- The list under a key of what several rounds have appended. -/
theorem get_flatMap {ι : Type} (l : List ι) (f : ι → Appends κ α) (k : κ) :
    get (l.flatMap f) k = l.flatMap fun x => get (f x) k := by
  simp only [get, List.filter_flatMap, List.map_flatMap]

/-- The list under a key of values that were all appended under one key. -/
theorem get_map (k k' : κ) (vs : List α) :
    get (vs.map (k', ·)) k = if k' = k then vs else [] := by
  unfold get
  rw [List.filter_map, List.map_map]
  have hsnd : Prod.snd ∘ (k', ·) = (id : α → α) := rfl
  by_cases hk : k' = k
  · have hall : vs.filter ((fun p : κ × α => decide (p.1 = k)) ∘ (k', ·)) = vs :=
      List.filter_eq_self.2 fun v _ => by simpa using hk
    rw [hall, hsnd, List.map_id, if_pos hk]
  · have hnone : vs.filter ((fun p : κ × α => decide (p.1 = k)) ∘ (k', ·)) = [] :=
      List.filter_eq_nil_iff.2 fun v _ => by simpa using hk
    rw [hnone, List.map_nil, if_neg hk]

end Appends

/-- What the members with a property contribute, as a loop over all members. -/
theorem filter_flatMap_eq (l : List α) (p : α → Bool) (f : α → List β) :
    (l.filter p).flatMap f = l.flatMap fun x => if p x then f x else [] := by
  induction l with
  | nil => rfl
  | cons x l ih =>
    rw [List.flatMap_cons, List.filter_cons, ← ih]
    by_cases hx : p x
    · rw [if_pos hx, if_pos hx, List.flatMap_cons]
    · rw [if_neg hx, if_neg hx, List.nil_append]

end ChainingBox.Lib
