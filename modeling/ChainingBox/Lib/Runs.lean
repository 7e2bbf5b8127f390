import Mathlib

/-!
# Runs of a state machine

A machine is a step function `step : σ → ε → σ`; a run is a list of events, and `run` the state that
it ends in. `Along P` says that `P` holds of the state and the event of every step of a run. The two
rules are `along_iff`, which exchanges a property of single steps for an equivalent one along a whole
run, and `along_of_invariant`, which proves a property along a run from an invariant that each step
of the run preserves, under a condition that each step of the run meets.

The second part is about machines without events, where a run is an iteration: `collect` gathers
what the states of an iteration show, and an iteration that reaches a fixed point stays there. The
last part is about values that go through a row of functions.
-/

namespace ChainingBox.Lib

variable {σ ε ω : Type}

/-- The state after a run of events. -/
def run (step : σ → ε → σ) (s : σ) (es : List ε) : σ := es.foldl step s

/-- A property of a state and an event holds at every step of a run. -/
def Along (step : σ → ε → σ) (P : σ → ε → Prop) : σ → List ε → Prop
  | _, [] => True
  | s, e :: es => P s e ∧ Along step P (step s e) es

theorem run_append (step : σ → ε → σ) (s : σ) (es es' : List ε) :
    run step s (es ++ es') = run step (run step s es) es' :=
  List.foldl_append

/-- Equivalent properties of single steps are equivalent along runs. -/
theorem along_iff {step : σ → ε → σ} {P Q : σ → ε → Prop} (h : ∀ s e, P s e ↔ Q s e) (s : σ)
    (es : List ε) : Along step P s es ↔ Along step Q s es := by
  induction es generalizing s with
  | nil => exact Iff.rfl
  | cons e es ih => exact and_congr (h s e) (ih _)

/-- Two properties hold along a run when each does. -/
theorem along_and {step : σ → ε → σ} {P Q : σ → ε → Prop} (s : σ) (es : List ε) :
    Along step (fun s e => P s e ∧ Q s e) s es ↔ Along step P s es ∧ Along step Q s es := by
  induction es generalizing s with
  | nil => simp only [Along, and_self]
  | cons e es ih =>
    simp only [Along, ih]
    tauto

/-- What every step preserves holds after a run. -/
theorem run_invariant {step : σ → ε → σ} {I : σ → Prop} (h : ∀ s e, I s → I (step s e)) {s : σ}
    (hs : I s) (es : List ε) : I (run step s es) := by
  induction es generalizing s with
  | nil => exact hs
  | cons e es ih => exact ih (h s e hs)

/-- The invariant rule. Under a condition `C` on its steps, a run that starts in an invariant keeps
it, and every step has the property that the invariant and the condition give. -/
theorem along_of_invariant {step : σ → ε → σ} {I : σ → Prop} {C P : σ → ε → Prop}
    (hstep : ∀ s e, I s → C s e → P s e ∧ I (step s e)) {s : σ} {es : List ε} (hs : I s)
    (hC : Along step C s es) : Along step P s es ∧ I (run step s es) := by
  induction es generalizing s with
  | nil => exact ⟨trivial, hs⟩
  | cons e es ih =>
    obtain ⟨hce, hces⟩ := hC
    obtain ⟨hp, hi⟩ := hstep s e hs hce
    obtain ⟨hps, hi'⟩ := ih hi hces
    exact ⟨⟨hp, hps⟩, hi'⟩

/-! ## Iterations -/

/-- What the first `n` states of an iteration show, in order. -/
def collect (next : σ → σ) (out : σ → List ω) : ℕ → σ → List ω
  | 0, _ => []
  | n + 1, s => out s ++ collect next out n (next s)

/-- A property of states that every step preserves holds throughout an iteration. -/
theorem iterate_invariant {next : σ → σ} {I : σ → Prop} (h : ∀ s, I s → I (next s)) {s : σ}
    (hs : I s) (n : ℕ) : I (next^[n] s) := by
  induction n with
  | zero => exact hs
  | succ n ih =>
    rw [Function.iterate_succ_apply']
    exact h _ ih

/-! ## Rows -/

section through

variable {ι α : Type} {f : ι → α → Option α}

variable (f) in
/-- A value goes through a row of functions, each of which returns a value or keeps it: what each
function is given, and what the last one returns, if none of them keeps it. -/
def through : List ι → α → List (ι × α) × Option α
  | [], a => ([], some a)
  | i :: is, a =>
    match f i a with
    | none => ([(i, a)], none)
    | some b => ((i, a) :: (through is b).1, (through is b).2)

theorem through_cons_none {i : ι} {a : α} (h : f i a = none) (is : List ι) :
    through f (i :: is) a = ([(i, a)], none) := by
  simp only [through, h]

theorem through_cons_some {i : ι} {a b : α} (h : f i a = some b) (is : List ι) :
    through f (i :: is) a = ((i, a) :: (through f is b).1, (through f is b).2) := by
  simp only [through, h]

/-- The value goes through the composition of the functions. -/
theorem through_snd (is : List ι) (a : α) :
    (through f is a).2 = is.foldlM (fun b i => f i b) a := by
  induction is generalizing a with
  | nil => rfl
  | cons i is ih =>
    cases h : f i a with
    | none => simp only [through_cons_none h, List.foldlM_cons, h, Option.bind_eq_bind,
        Option.bind_none]
    | some b => simp only [through_cons_some h, List.foldlM_cons, h, Option.bind_eq_bind,
        Option.bind_some, ih]

/-- Functions that keep a class of values, and return a value of it or not whatever it is. -/
theorem through_of_class {P : α → Prop} {ok : ι → Bool} {g : ι → α → α}
    (hf : ∀ i a, P a → f i a = if ok i then some (g i a) else none)
    (hg : ∀ i a, P a → ok i → P (g i a)) (is : List ι) {a : α} (ha : P a) :
    (through f is a).1.map Prod.fst = is.take ((is.takeWhile ok).length + 1) ∧
      (through f is a).2 =
        if is.all ok then some (is.foldl (fun b i => g i b) a) else none := by
  induction is generalizing a with
  | nil => exact ⟨rfl, rfl⟩
  | cons i is ih =>
    cases hok : ok i with
    | false =>
      have hnone : f i a = none := by rw [hf i a ha, hok, if_neg Bool.false_ne_true]
      simp [through_cons_none hnone, hok]
    | true =>
      have hsome : f i a = some (g i a) := by rw [hf i a ha, hok, if_pos rfl]
      obtain ⟨hgiven, hret⟩ := ih (hg i a ha hok)
      simp [through_cons_some hsome, hok, hgiven, hret]

end through

end ChainingBox.Lib
