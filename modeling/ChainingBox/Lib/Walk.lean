import Mathlib

/-!
# Walks through a table by its successor function

A table with a fixed order of its keys answers to a key with the one behind it, to a key that it
does not have, or to none, with the first one, and behind the last key it fails (`next`). A walk
starts somewhere and asks on, from each key that it gets, until it fails (`walk`).

From a start that is no key the walk is the whole order, each key once (`walk_of_not_mem`). From a
key it is what lies behind that key (`walk_of_mem`). It always ends.
-/

namespace ChainingBox.Lib.Walk

variable {α : Type} [DecidableEq α]

/-- The key behind `prev` in the order. -/
def next (order : List α) : Option α → Option α
  | none => order.head?
  | some prev =>
    match order.dropWhile (· ≠ prev) with
    | [] => order.head?
    | _ :: rest => rest.head?

/-- The keys of a walk from `prev` on; `none` if it has not failed after `n` questions. -/
def walk (order : List α) : ℕ → Option α → Option (List α)
  | 0, _ => none
  | n + 1, prev =>
    match next order prev with
    | none => some []
    | some key => (walk order n (some key)).map (key :: ·)

variable {order before after : List α} {k : α}

/-- A key that the table does not have is answered with the first one. -/
theorem next_of_not_mem (h : k ∉ order) : next order (some k) = order.head? := by
  have hdrop : order.dropWhile (· ≠ k) = [] := by
    rw [List.dropWhile_eq_nil_iff]
    intro x hx
    exact decide_eq_true fun hxk => h (hxk ▸ hx)
  rw [next, hdrop]

/-- A key of the table is answered with the one behind it. -/
theorem next_of_mem (hnodup : order.Nodup) (h : order = before ++ k :: after) :
    next order (some k) = after.head? := by
  have hk : ∀ x ∈ before, decide (x ≠ k) = true := by
    intro x hx
    subst h
    have hdisj := (List.nodup_append.1 hnodup).2.2 x hx k List.mem_cons_self
    exact decide_eq_true hdisj
  have hdrop : order.dropWhile (· ≠ k) = k :: after := by
    rw [h, List.dropWhile_append_of_pos hk, List.dropWhile_cons_of_neg (by simp)]
  rw [next, hdrop]

/-- The walk from a key: what lies behind it. -/
theorem walk_of_mem (hnodup : order.Nodup) (h : order = before ++ k :: after) {n : ℕ}
    (hn : after.length < n) : walk order n (some k) = some after := by
  induction after generalizing before k n with
  | nil =>
    obtain ⟨n, rfl⟩ := Nat.exists_eq_succ_of_ne_zero (Nat.ne_of_gt hn)
    rw [walk, next_of_mem hnodup h]
    rfl
  | cons key after ih =>
    obtain ⟨n, rfl⟩ := Nat.exists_eq_succ_of_ne_zero (Nat.ne_of_gt (Nat.zero_lt_of_lt hn))
    have hrest : order = (before ++ [k]) ++ key :: after := by
      rw [h, List.append_assoc]
      rfl
    rw [walk, next_of_mem hnodup h, List.head?_cons]
    dsimp only
    rw [ih hrest (Nat.lt_of_succ_lt_succ hn)]
    rfl

/-- The walk from the start, or from what is no key: all keys. -/
theorem walk_of_head (hnodup : order.Nodup) {prev : Option α} (h : next order prev = order.head?)
    {n : ℕ} (hn : order.length < n) : walk order n prev = some order := by
  obtain ⟨n, rfl⟩ := Nat.exists_eq_succ_of_ne_zero (Nat.ne_of_gt (Nat.zero_lt_of_lt hn))
  rw [walk, h]
  cases order with
  | nil => rfl
  | cons key after =>
    rw [List.head?_cons]
    dsimp only
    rw [walk_of_mem hnodup (List.nil_append _).symm (Nat.lt_of_succ_lt_succ hn)]
    rfl

/-- The walk from the start, or from a key that the table does not have. -/
theorem walk_of_not_mem (hnodup : order.Nodup) {prev : Option α} (h : ∀ k ∈ order, prev ≠ some k)
    {n : ℕ} (hn : order.length < n) : walk order n prev = some order := by
  refine walk_of_head hnodup ?_ hn
  cases prev with
  | none => rfl
  | some k => exact next_of_not_mem fun hk => h k hk rfl

end ChainingBox.Lib.Walk
