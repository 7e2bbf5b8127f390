import Mathlib

/-!
# Hash tables with a capacity

A `BoundedMap` is an association list with distinct keys and at most `cap` entries. `update` is the
table's only write: it replaces the value of a key that has an entry, adds an entry while there is
room, and fails on a new key once the table is full. A caller that ignores the failure performs
`put`, which leaves the full table as it was, and `putAll` is a run of such writes.

`lookup_putAll_empty` is the closed form of a run from the empty table: a key has an entry exactly
when it is among the first `cap` distinct keys written (`firstKeys`), and the entry is then the
last value written to it (`lastValue`).
-/

namespace ChainingBox.Lib

/-- A table from `κ` to `α` with at most `cap` entries. -/
structure BoundedMap (κ α : Type) (cap : ℕ) where
  /-- The entries, one for each key. -/
  table : AList fun _ : κ => α
  /-- The table never holds more than its capacity. -/
  bounded : table.keys.length ≤ cap

namespace BoundedMap

variable {κ α : Type} {cap : ℕ}

/-- The table without entries. -/
def empty : BoundedMap κ α cap := ⟨∅, Nat.zero_le _⟩

/-- The number of entries. -/
def size (m : BoundedMap κ α cap) : ℕ := m.table.keys.length

@[simp] theorem size_empty : (empty : BoundedMap κ α cap).size = 0 := rfl

theorem size_le (m : BoundedMap κ α cap) : m.size ≤ cap := m.bounded

instance : Membership κ (BoundedMap κ α cap) := ⟨fun m k => k ∈ m.table⟩

@[simp] theorem not_mem_empty (k : κ) : k ∉ (empty : BoundedMap κ α cap) := AList.notMem_empty k

variable [DecidableEq κ]

/-- The value stored under a key. -/
def lookup (m : BoundedMap κ α cap) (k : κ) : Option α := m.table.lookup k

instance (k : κ) (m : BoundedMap κ α cap) : Decidable (k ∈ m) :=
  inferInstanceAs (Decidable (k ∈ m.table))

/-- Writing an entry succeeds when the key has one already or the table has room. -/
def Room (m : BoundedMap κ α cap) (k : κ) : Prop := k ∈ m ∨ m.size < cap

instance (m : BoundedMap κ α cap) (k : κ) : Decidable (m.Room k) :=
  inferInstanceAs (Decidable (_ ∨ _))

/-- The number of entries after an insertion into the underlying list. -/
theorem insert_keys_length (t : AList fun _ : κ => α) (k : κ) (v : α) :
    (t.insert k v).keys.length = if k ∈ t then t.keys.length else t.keys.length + 1 := by
  rw [AList.keys_insert, List.length_cons]
  split_ifs with h
  · rw [List.length_erase_of_mem (AList.mem_keys.1 h)]
    have := List.length_pos_of_mem (AList.mem_keys.1 h)
    omega
  · rw [List.erase_of_not_mem (fun h' => h (AList.mem_keys.2 h'))]

/-- Write an entry, or fail on a new key when the table is full. -/
def update (m : BoundedMap κ α cap) (k : κ) (v : α) : Option (BoundedMap κ α cap) :=
  if h : m.Room k then
    some ⟨m.table.insert k v, by
      rw [insert_keys_length]
      have hb := m.bounded
      split_ifs with hk
      · exact hb
      · exact h.resolve_left hk⟩
  else none

/-- A write whose failure is ignored. -/
def put (m : BoundedMap κ α cap) (k : κ) (v : α) : BoundedMap κ α cap := (m.update k v).getD m

/-- A run of writes whose failures are ignored. -/
def putAll (m : BoundedMap κ α cap) (l : List (κ × α)) : BoundedMap κ α cap :=
  l.foldl (fun m p => m.put p.1 p.2) m

@[simp] theorem lookup_empty (k : κ) : (empty : BoundedMap κ α cap).lookup k = none := rfl

theorem lookup_isSome {m : BoundedMap κ α cap} {k : κ} : (m.lookup k).isSome ↔ k ∈ m :=
  AList.lookup_isSome

theorem lookup_eq_none {m : BoundedMap κ α cap} {k : κ} : m.lookup k = none ↔ k ∉ m :=
  AList.lookup_eq_none

/-! ## One write -/

/-- A write to a full table under a new key changes nothing. -/
theorem put_of_not_room {m : BoundedMap κ α cap} {k : κ} {v : α} (h : ¬ m.Room k) :
    m.put k v = m := by
  simp [put, update, h]

/-- What a write does to the entries. -/
theorem lookup_put (m : BoundedMap κ α cap) (k k' : κ) (v : α) :
    (m.put k v).lookup k' = if k' = k ∧ m.Room k then some v else m.lookup k' := by
  by_cases h : m.Room k
  · simp only [put, update, h, dif_pos, Option.getD_some, and_true]
    by_cases hk : k' = k
    · subst hk
      simp [lookup]
    · simp [lookup, hk, AList.lookup_insert_ne hk]
  · rw [put_of_not_room h, if_neg (fun hc => h hc.2)]

/-- A successful write stores its value. -/
theorem lookup_put_self {m : BoundedMap κ α cap} {k : κ} (v : α) (h : m.Room k) :
    (m.put k v).lookup k = some v := by
  rw [lookup_put, if_pos ⟨rfl, h⟩]

/-- After a write to a key there is room for another one. -/
theorem Room.put {m : BoundedMap κ α cap} {k : κ} (h : m.Room k) (v : α) :
    (m.put k v).Room k := by
  left
  rw [← lookup_isSome, lookup_put_self v h]
  rfl

/-- What is found under a key right after a write to it is what was written, if anything. -/
theorem eq_of_lookup_put_self {m : BoundedMap κ α cap} {k : κ} {v w : α}
    (h : (m.put k v).lookup k = some w) : w = v := by
  by_cases hroom : m.Room k
  · rw [lookup_put_self v hroom] at h
    exact (Option.some.inj h).symm
  · rw [put_of_not_room hroom] at h
    have hmem : k ∈ m := lookup_isSome.1 (by rw [h]; rfl)
    exact absurd (Or.inl hmem) hroom

/-- A write leaves the entries of other keys alone. -/
theorem lookup_put_ne {m : BoundedMap κ α cap} {k k' : κ} (v : α) (h : k' ≠ k) :
    (m.put k v).lookup k' = m.lookup k' := by
  rw [lookup_put, if_neg (fun hc => h hc.1)]

theorem mem_put {m : BoundedMap κ α cap} {k k' : κ} {v : α} :
    k' ∈ m.put k v ↔ k' ∈ m ∨ k' = k ∧ m.size < cap := by
  rw [← lookup_isSome, lookup_put, ← lookup_isSome (m := m)]
  by_cases hk : k' = k
  · subst hk
    by_cases hr : m.Room k'
    · have h := hr
      unfold Room at h
      rw [← lookup_isSome] at h
      simpa [hr] using h
    · have h := hr
      unfold Room at h
      rw [← lookup_isSome] at h
      simp only [hr, and_false, if_false]
      tauto
  · simp [hk]

/-- The number of entries after a write. -/
theorem size_put (m : BoundedMap κ α cap) (k : κ) (v : α) :
    (m.put k v).size = if k ∈ m then m.size else min (m.size + 1) cap := by
  have hle := m.size_le
  by_cases h : m.Room k
  · simp only [put, update, h, dif_pos, Option.getD_some]
    show (m.table.insert k v).keys.length = _
    rw [insert_keys_length]
    by_cases hk : k ∈ m
    · have hk' : k ∈ m.table := hk
      simp [hk, hk', size]
    · have hk' : k ∉ m.table := hk
      have hlt := h.resolve_left hk
      simp only [hk, hk', if_false]
      show m.size + 1 = _
      omega
  · rw [put_of_not_room h]
    unfold Room at h
    push Not at h
    rw [if_neg h.1]
    omega

/-! ## Changes in place -/

/-- A change of the value under a key through a pointer to it, if there is one. -/
def modify (m : BoundedMap κ α cap) (k : κ) (f : α → α) : BoundedMap κ α cap :=
  match m.lookup k with
  | some v => m.put k (f v)
  | none => m

theorem lookup_modify (m : BoundedMap κ α cap) (k k' : κ) (f : α → α) :
    (m.modify k f).lookup k' = if k' = k then (m.lookup k).map f else m.lookup k' := by
  unfold modify
  cases hk : m.lookup k with
  | none =>
    split_ifs with heq
    · rw [heq, hk]
      rfl
    · rfl
  | some v =>
    have hmem : k ∈ m := lookup_isSome.1 (by rw [hk]; rfl)
    split_ifs with heq
    · rw [heq, lookup_put_self _ (Or.inl hmem)]
      rfl
    · exact lookup_put_ne _ heq

/-! ## The entries as a whole -/

/-- The sum of a number that each value has. -/
def total (m : BoundedMap κ α cap) (f : α → ℕ) : ℕ := (m.table.entries.map fun e => f e.2).sum

theorem keys_toFinset {m : BoundedMap κ α cap} {s : Finset κ} (h : ∀ k, k ∈ m ↔ k ∈ s) :
    m.table.keys.toFinset = s := by
  ext k
  rw [List.mem_toFinset, ← h]
  exact Iff.rfl

/-- A table has as many entries as there are keys in it. -/
theorem size_eq_card {m : BoundedMap κ α cap} {s : Finset κ} (h : ∀ k, k ∈ m ↔ k ∈ s) :
    m.size = s.card := by
  rw [← keys_toFinset h, List.toFinset_card_of_nodup m.table.keys_nodup]
  rfl

theorem total_eq_sum {m : BoundedMap κ α cap} {s : Finset κ} (h : ∀ k, k ∈ m ↔ k ∈ s)
    (f : α → ℕ) : m.total f = ∑ k ∈ s, (m.lookup k).elim 0 f := by
  have hentry : ∀ e ∈ m.table.entries, f e.2 = (m.lookup e.1).elim 0 f := by
    intro e he
    have hlookup : m.lookup e.1 = some e.2 := AList.mem_lookup_iff.2 he
    rw [hlookup]
    rfl
  calc m.total f = (m.table.entries.map fun e => (m.lookup e.1).elim 0 f).sum := by
        rw [total, List.map_congr_left hentry]
    _ = (m.table.keys.map fun k => (m.lookup k).elim 0 f).sum := by
        rw [AList.keys, List.keys, List.map_map]
        rfl
    _ = ∑ k ∈ m.table.keys.toFinset, (m.lookup k).elim 0 f :=
        (List.sum_toFinset _ m.table.keys_nodup).symm
    _ = ∑ k ∈ s, (m.lookup k).elim 0 f := by rw [keys_toFinset h]

/-! ## A run of writes -/

@[simp] theorem putAll_nil (m : BoundedMap κ α cap) : m.putAll [] = m := rfl

@[simp] theorem putAll_cons (m : BoundedMap κ α cap) (p : κ × α) (l : List (κ × α)) :
    m.putAll (p :: l) = (m.put p.1 p.2).putAll l := rfl

theorem putAll_append (m : BoundedMap κ α cap) (l l' : List (κ × α)) :
    m.putAll (l ++ l') = (m.putAll l).putAll l' := List.foldl_append

/-- Steps on a larger state, of which each writes to a table at most once. -/
theorem foldl_eq_putAll {σ β : Type} {table : σ → BoundedMap κ α cap} {step : σ → β → σ}
    {write : β → Option (κ × α)}
    (hstep : ∀ s b, table (step s b) = (table s).putAll (write b).toList) (s : σ) (bs : List β) :
    table (bs.foldl step s) = (table s).putAll (bs.filterMap write) := by
  induction bs generalizing s with
  | nil => rfl
  | cons b bs ih =>
    have hcons : (b :: bs).filterMap write = (write b).toList ++ bs.filterMap write := by
      rw [List.filterMap_cons]
      cases write b <;> rfl
    rw [List.foldl_cons, ih, hstep, hcons, putAll_append]

/-- The first `cap` distinct keys of a run of writes. -/
def firstKeys (cap : ℕ) (l : List (κ × α)) : List κ := ((l.map Prod.fst).eraseDups).take cap

/-- The last value that a run of writes writes to a key. -/
def lastValue (l : List (κ × α)) (k : κ) : Option α := l.reverse.lookup k

theorem lastValue_append_singleton (l : List (κ × α)) (p : κ × α) (k : κ) :
    lastValue (l ++ [p]) k = if k = p.1 then some p.2 else lastValue l k := by
  unfold lastValue
  rw [List.reverse_append, List.reverse_singleton, List.singleton_append]
  obtain ⟨a, b⟩ := p
  by_cases h : k = a
  · subst h; simp
  · rw [if_neg h, List.lookup_cons, beq_false_of_ne h]

/-- The last value was written by the run. -/
theorem mem_of_lastValue {l : List (κ × α)} {k : κ} {v : α} (h : lastValue l k = some v) :
    (k, v) ∈ l := by
  obtain ⟨l₁, l₂, hl, -⟩ := List.lookup_eq_some_iff.1 h
  rw [← List.mem_reverse, hl]
  simp

/-- A run of writes that all give `k` the value `v` leaves that value last. -/
theorem lastValue_of_forall {l : List (κ × α)} {k : κ} {v : α} (hmem : (k, v) ∈ l)
    (hall : ∀ p ∈ l, p.1 = k → p.2 = v) : lastValue l k = some v := by
  induction l using List.reverseRecOn with
  | nil => simp at hmem
  | append_singleton l p ih =>
    rw [lastValue_append_singleton]
    split_ifs with hk
    · rw [hall p (by simp) hk.symm]
    · refine ih ?_ fun q hq => hall q (by simp [hq])
      rcases List.mem_append.1 hmem with h | h
      · exact h
      · rw [List.mem_singleton] at h
        exact absurd (by rw [← h]) hk

/-- The keys of a run, with the keys it repeats left out, after one more write. -/
theorem firstKeys_append_singleton (l : List (κ × α)) (p : κ × α) :
    firstKeys cap (l ++ [p]) =
      if p.1 ∈ l.map Prod.fst ∨ cap ≤ (firstKeys cap l).length then firstKeys cap l
      else firstKeys cap l ++ [p.1] := by
  unfold firstKeys
  rw [List.map_append, List.map_singleton, List.eraseDups_append]
  by_cases hm : p.1 ∈ l.map Prod.fst
  · rw [if_pos (Or.inl hm), List.removeAll, List.filter_cons_of_neg (by simpa using hm)]
    simp
  · have hr : [p.1].removeAll (l.map Prod.fst) = [p.1] := by
      rw [List.removeAll, List.filter_cons_of_pos (by simpa using hm), List.filter_nil]
    rw [hr]
    simp only [hm, false_or, List.length_take, List.eraseDups_cons, List.eraseDups_nil,
      List.filter_nil]
    split_ifs with hc
    · rw [List.take_append_of_le_length (by omega)]
    · rw [List.take_of_length_le (by simp; omega), List.take_of_length_le (by omega)]

/-- The entries of a table filled by a run of writes: the first `cap` distinct keys. -/
theorem mem_putAll_empty (l : List (κ × α)) :
    (∀ k, k ∈ (empty : BoundedMap κ α cap).putAll l ↔ k ∈ firstKeys cap l) ∧
      ((empty : BoundedMap κ α cap).putAll l).size = (firstKeys cap l).length := by
  induction l using List.reverseRecOn with
  | nil => simp [firstKeys]
  | append_singleton l p ih =>
    obtain ⟨ihm, ihs⟩ := ih
    rw [putAll_append, putAll_cons, putAll_nil]
    have hle := ((empty : BoundedMap κ α cap).putAll l).size_le
    rw [ihs] at hle
    have hfk : ∀ k, k ∈ firstKeys cap l → k ∈ l.map Prod.fst := fun k hk =>
      List.mem_eraseDups.1 (List.mem_of_mem_take hk)
    -- While the table is not full, every key written so far has an entry.
    have hall : (firstKeys cap l).length < cap → ∀ k ∈ l.map Prod.fst, k ∈ firstKeys cap l := by
      intro hlt k hk
      have hlen : (l.map Prod.fst).eraseDups.length ≤ cap := by
        unfold firstKeys at hlt
        rw [List.length_take] at hlt
        omega
      unfold firstKeys
      rw [List.take_of_length_le hlen]
      exact List.mem_eraseDups.2 hk
    rw [firstKeys_append_singleton]
    constructor
    · intro k
      rw [mem_put, ihm, ihs]
      split_ifs with hc
      · constructor
        · rintro (h | ⟨rfl, hlt⟩)
          · exact h
          · exact hall hlt _ (hc.resolve_right (by omega))
        · exact Or.inl
      · push Not at hc
        rw [List.mem_append, List.mem_singleton]
        exact or_congr_right (and_iff_left hc.2)
    · rw [size_put, ihs]
      simp only [ihm]
      split_ifs with h1 h2 h2
      · rfl
      · exact absurd (Or.inl (hfk _ h1)) h2
      · rcases h2 with h2 | h2
        · have : ¬ (firstKeys cap l).length < cap := fun hlt => h1 (hall hlt _ h2)
          omega
        · omega
      · rw [List.length_append, List.length_singleton]
        omega

/-- A table filled from empty: the first `cap` distinct keys, each with the last value written. -/
theorem lookup_putAll_empty (l : List (κ × α)) (k : κ) :
    ((empty : BoundedMap κ α cap).putAll l).lookup k =
      if k ∈ firstKeys cap l then lastValue l k else none := by
  by_cases hk : k ∈ firstKeys cap l
  · rw [if_pos hk]
    induction l using List.reverseRecOn with
    | nil => simp [firstKeys] at hk
    | append_singleton l p ih =>
      obtain ⟨ihm, ihs⟩ := @mem_putAll_empty κ α cap _ l
      rw [putAll_append, putAll_cons, putAll_nil, lookup_put, lastValue_append_singleton]
      rw [firstKeys_append_singleton] at hk
      by_cases hkp : k = p.1
      · -- The key has its entry already, or the table takes the new key.
        have hroom : ((empty : BoundedMap κ α cap).putAll l).Room p.1 := by
          unfold Room
          rw [ihm, ihs, ← hkp]
          split_ifs at hk with hc
          · exact Or.inl hk
          · push Not at hc
            exact Or.inr hc.2
        rw [if_pos ⟨hkp, hroom⟩, if_pos hkp]
      · rw [if_neg (fun hc => hkp hc.1), if_neg hkp]
        apply ih
        split_ifs at hk with hc
        · exact hk
        · simpa [hkp] using hk
  · rw [if_neg hk, lookup_eq_none]
    exact fun h => hk ((mem_putAll_empty l).1 k |>.1 h)

/-- A run of at most `cap` writes leaves no key out. -/
theorem mem_firstKeys_of_length_le {l : List (κ × α)} (h : l.length ≤ cap) :
    (firstKeys cap l).length ≤ l.length ∧ ∀ k ∈ l.map Prod.fst, k ∈ firstKeys cap l := by
  induction l using List.reverseRecOn with
  | nil => simp [firstKeys]
  | append_singleton l p ih =>
    rw [List.length_append, List.length_singleton] at h ⊢
    obtain ⟨ihl, ihk⟩ := ih (by omega)
    rw [firstKeys_append_singleton]
    constructor
    · split_ifs
      · omega
      · rw [List.length_append, List.length_singleton]
        omega
    · intro k hk
      rw [List.map_append, List.mem_append, List.map_singleton, List.mem_singleton] at hk
      split_ifs with hc
      · rcases hk with hk | rfl
        · exact ihk k hk
        · exact ihk _ (hc.resolve_right (by omega))
      · rw [List.mem_append, List.mem_singleton]
        exact hk.imp_left (ihk k)

/-- After a run of at most `cap` writes, every key that was written is found. -/
theorem exists_lookup_putAll {l : List (κ × α)} (h : l.length ≤ cap) {k : κ}
    (hk : k ∈ l.map Prod.fst) :
    ∃ v, ((empty : BoundedMap κ α cap).putAll l).lookup k = some v := by
  apply Option.isSome_iff_exists.1
  rw [lookup_isSome, (mem_putAll_empty l).1]
  exact (mem_firstKeys_of_length_le h).2 k hk

/-- Distinct keys fill the table up to its capacity, in order. -/
theorem firstKeys_of_nodup {l : List (κ × α)} (h : (l.map Prod.fst).Nodup) :
    firstKeys cap l = (l.map Prod.fst).take cap := by
  unfold firstKeys
  congr 1
  generalize l.map Prod.fst = ks at h
  induction ks with
  | nil => rfl
  | cons k ks ih =>
    obtain ⟨hk, hks⟩ := List.nodup_cons.1 h
    rw [List.eraseDups_cons, List.filter_eq_self.2, ih hks]
    intro a ha
    simpa using fun hka : a = k => hk (hka ▸ ha)

/-- Writes under distinct keys fill the table one by one, up to its capacity. -/
theorem size_putAll_of_nodup {l : List (κ × α)} (h : (l.map Prod.fst).Nodup) :
    ((empty : BoundedMap κ α cap).putAll l).size = min cap l.length := by
  rw [(mem_putAll_empty l).2, firstKeys_of_nodup h, List.length_take, List.length_map]

/-- Every entry of a table filled from empty was the last one that the run wrote to its key. -/
theorem lastValue_of_lookup_putAll_empty {l : List (κ × α)} {k : κ} {v : α}
    (h : ((empty : BoundedMap κ α cap).putAll l).lookup k = some v) : lastValue l k = some v := by
  rw [lookup_putAll_empty] at h
  split_ifs at h
  exact h

/-- So it was written by the run. -/
theorem mem_of_lookup_putAll_empty {l : List (κ × α)} {k : κ} {v : α}
    (h : ((empty : BoundedMap κ α cap).putAll l).lookup k = some v) : (k, v) ∈ l :=
  mem_of_lastValue (lastValue_of_lookup_putAll_empty h)

/-! ## Runs of writes that all succeed -/

/-- The last value of two runs, one after the other. -/
theorem lastValue_append (l l' : List (κ × α)) (k : κ) :
    lastValue (l ++ l') k = (lastValue l' k).or (lastValue l k) := by
  rw [lastValue, List.reverse_append, List.lookup_append]
  rfl

/-- The last value of a run that begins with a write. -/
theorem lastValue_cons (p : κ × α) (l : List (κ × α)) (k : κ) :
    lastValue (p :: l) k = (lastValue l k).or (if k = p.1 then some p.2 else none) := by
  have happ : lastValue (p :: l) k = (lastValue l k).or (lastValue [p] k) :=
    lastValue_append [p] l k
  rw [happ]
  exact congrArg _ (lastValue_append_singleton [] p k)

/-- A key that a run writes to has a last value. -/
theorem exists_lastValue {l : List (κ × α)} {k : κ} :
    (∃ v, lastValue l k = some v) ↔ k ∈ l.map Prod.fst := by
  rw [← Option.isSome_iff_exists, ← not_iff_not, Bool.not_eq_true, Option.isSome_eq_false_iff,
    Option.isNone_iff_eq_none, lastValue, List.lookup_eq_none_iff]
  constructor
  · intro h hk
    obtain ⟨p, hp, rfl⟩ := List.mem_map.1 hk
    simpa using h p (List.mem_reverse.2 hp)
  · intro h p hp
    rw [bne_iff_ne]
    rintro rfl
    exact h (List.mem_map.2 ⟨p, List.mem_reverse.1 hp, rfl⟩)

/-- In a run that goes through `l`, the last value of a key was written for an element behind all
others that write to it. -/
theorem of_lastValue_flatMap {ι : Type} {r : ι → ι → Prop} {l : List ι} (hsorted : l.Pairwise r)
    {f : ι → List (κ × α)} {k : κ} {v : α} (h : lastValue (l.flatMap f) k = some v) :
    ∃ i ∈ l, (k, v) ∈ f i ∧ ∀ j ∈ l, k ∈ (f j).map Prod.fst → j = i ∨ r j i := by
  induction l using List.reverseRecOn with
  | nil => simp [lastValue] at h
  | append_singleton l i ih =>
    obtain ⟨hl, -, hlast⟩ := List.pairwise_append.1 hsorted
    rw [List.flatMap_append, List.flatMap_singleton, lastValue_append, Option.or_eq_some_iff] at h
    rcases h with h | ⟨hnone, h⟩
    · refine ⟨i, by simp, mem_of_lastValue h, fun j hj _ => ?_⟩
      rcases List.mem_append.1 hj with hj | hj
      · exact Or.inr (hlast j hj i (List.mem_singleton_self i))
      · exact Or.inl (List.mem_singleton.1 hj)
    · -- The last element does not write to the key.
      obtain ⟨i', hi', hmem, hall⟩ := ih hl h
      refine ⟨i', List.mem_append_left _ hi', hmem, fun j hj hk => ?_⟩
      rcases List.mem_append.1 hj with hj | hj
      · exact hall j hj hk
      · obtain rfl := List.mem_singleton.1 hj
        obtain ⟨w, hw⟩ := exists_lastValue.2 hk
        rw [hnone] at hw
        exact absurd hw (by simp)

/-- Every write of a run succeeds. -/
def AllFit : BoundedMap κ α cap → List (κ × α) → Prop
  | _, [] => True
  | m, p :: l => m.Room p.1 ∧ AllFit (m.put p.1 p.2) l

/-- The keys of a list that have no entry yet. -/
def newKeys (m : BoundedMap κ α cap) (ks : List κ) : Finset κ := ks.toFinset.filter (· ∉ m)

/-- A run of writes succeeds exactly when the table has room for all its new keys. -/
theorem allFit_iff {m : BoundedMap κ α cap} {l : List (κ × α)} :
    m.AllFit l ↔ m.size + (m.newKeys (l.map Prod.fst)).card ≤ cap := by
  induction l generalizing m with
  | nil =>
    have hle := m.size_le
    simp [AllFit, newKeys, hle]
  | cons p l ih =>
    have hle := m.size_le
    rw [AllFit, ih, List.map_cons]
    by_cases hk : p.1 ∈ m
    · -- The key is not new, and the write changes neither the keys nor the size.
      have hmem (k : κ) : k ∈ m.put p.1 p.2 ↔ k ∈ m := by
        rw [mem_put, or_iff_left_iff_imp]
        rintro ⟨rfl, -⟩
        exact hk
      have hnew : m.newKeys (p.1 :: l.map Prod.fst) =
          (m.put p.1 p.2).newKeys (l.map Prod.fst) := by
        ext k
        simp only [newKeys, Finset.mem_filter, List.mem_toFinset, List.mem_cons, hmem]
        refine and_congr_left fun hnot => or_iff_right ?_
        rintro rfl
        exact hnot hk
      rw [hnew, size_put, if_pos hk]
      exact and_iff_right (Or.inl hk)
    · -- The key is new, and the write needs room for it.
      have hnew : m.newKeys (p.1 :: l.map Prod.fst) =
          insert p.1 (m.newKeys (l.map Prod.fst)) := by
        ext k
        simp only [newKeys, Finset.mem_filter, List.mem_toFinset, List.mem_cons, Finset.mem_insert]
        constructor
        · rintro ⟨h | h, hnot⟩
          · exact Or.inl h
          · exact Or.inr ⟨h, hnot⟩
        · rintro (rfl | ⟨h, hnot⟩)
          · exact ⟨Or.inl rfl, hk⟩
          · exact ⟨Or.inr h, hnot⟩
      rw [hnew, size_put, if_neg hk]
      by_cases hlt : m.size < cap
      · -- The write takes the new key from those that are still to come.
        have hrest : (m.put p.1 p.2).newKeys (l.map Prod.fst) =
            (m.newKeys (l.map Prod.fst)).erase p.1 := by
          ext k
          simp only [newKeys, Finset.mem_filter, List.mem_toFinset, Finset.mem_erase, mem_put, hlt,
            and_true]
          tauto
        have hcard : (insert p.1 (m.newKeys (l.map Prod.fst))).card =
            ((m.newKeys (l.map Prod.fst)).erase p.1).card + 1 := by
          rw [← Finset.erase_insert_eq_erase,
            Finset.card_erase_add_one (Finset.mem_insert_self _ _)]
        have hroom : m.Room p.1 := Or.inr hlt
        rw [hrest, hcard, and_iff_right hroom]
        omega
      · have hfull : ¬ m.Room p.1 := fun h => h.elim hk hlt
        have hpos : 0 < (insert p.1 (m.newKeys (l.map Prod.fst))).card :=
          Finset.card_pos.2 ⟨p.1, Finset.mem_insert_self _ _⟩
        constructor
        · exact fun h => absurd h.1 hfull
        · intro h
          omega

/-- Whether a run succeeds does not depend on its order. -/
theorem AllFit.perm {m : BoundedMap κ α cap} {l l' : List (κ × α)} (h : m.AllFit l)
    (hp : l.Perm l') : m.AllFit l' := by
  rw [allFit_iff] at h ⊢
  have hkeys : m.newKeys (l'.map Prod.fst) = m.newKeys (l.map Prod.fst) := by
    rw [newKeys, newKeys, List.toFinset_eq_of_perm _ _ (hp.map Prod.fst)]
  rw [hkeys]
  exact h

/-- After a run of writes that succeed, a key has the last value written to it, or its old one. -/
theorem lookup_putAll_of_allFit {m : BoundedMap κ α cap} {l : List (κ × α)} (h : m.AllFit l)
    (k : κ) : (m.putAll l).lookup k = (lastValue l k).or (m.lookup k) := by
  induction l generalizing m with
  | nil => rfl
  | cons p l ih =>
    obtain ⟨hroom, hrest⟩ := h
    rw [putAll_cons, ih hrest, lookup_put, lastValue_cons, Option.or_assoc]
    congr 1
    by_cases hk : k = p.1
    · rw [if_pos ⟨hk, hroom⟩, if_pos hk]
      rfl
    · rw [if_neg fun hc => hk hc.1, if_neg hk]
      rfl

/-- A full table takes no new keys. -/
theorem mem_putAll_of_full {m : BoundedMap κ α cap} (h : cap ≤ m.size) (l : List (κ × α)) (k : κ) :
    k ∈ m.putAll l ↔ k ∈ m := by
  induction l generalizing m with
  | nil => exact Iff.rfl
  | cons p l ih =>
    have hle := m.size_le
    have hsize : cap ≤ (m.put p.1 p.2).size := by
      rw [size_put]
      split_ifs
      · exact h
      · omega
    rw [putAll_cons, ih hsize, mem_put]
    exact or_iff_left fun hc => absurd hc.2 (by omega)

/-- A run in which some write fails leaves a key of it without an entry. -/
theorem exists_lookup_none {m : BoundedMap κ α cap} {l : List (κ × α)} (h : ¬ m.AllFit l) :
    ∃ p ∈ l, (m.putAll l).lookup p.1 = none := by
  induction l generalizing m with
  | nil => exact absurd trivial h
  | cons p l ih =>
    by_cases hroom : m.Room p.1
    · have hrest : ¬ (m.put p.1 p.2).AllFit l := fun hl => h ⟨hroom, hl⟩
      obtain ⟨q, hq, hnone⟩ := ih hrest
      exact ⟨q, List.mem_cons_of_mem p hq, hnone⟩
    · unfold Room at hroom
      push Not at hroom
      refine ⟨p, List.mem_cons_self, ?_⟩
      rw [lookup_eq_none, mem_putAll_of_full hroom.2]
      exact hroom.1

/-! ## Room for several keys -/

/-- There is room for all keys of a list. -/
def Spare (m : BoundedMap κ α cap) (ks : List κ) : Prop := m.size + (m.newKeys ks).card ≤ cap

instance (m : BoundedMap κ α cap) (ks : List κ) : Decidable (m.Spare ks) :=
  inferInstanceAs (Decidable (_ ≤ _))

theorem Spare.room {m : BoundedMap κ α cap} {ks : List κ} (h : m.Spare ks) {k : κ} (hk : k ∈ ks) :
    m.Room k := by
  by_cases hmem : k ∈ m
  · exact Or.inl hmem
  · have hnew : k ∈ m.newKeys ks := Finset.mem_filter.2 ⟨List.mem_toFinset.2 hk, hmem⟩
    have hpos := Finset.card_pos.2 ⟨k, hnew⟩
    have hle : m.size + (m.newKeys ks).card ≤ cap := h
    exact Or.inr (by omega)

/-- A write to one of the keys uses the room that there is for it. -/
theorem Spare.put {m : BoundedMap κ α cap} {ks : List κ} (h : m.Spare ks) {k : κ} (hk : k ∈ ks)
    (v : α) : (m.put k v).Spare ks := by
  have hfit : m.AllFit ((k, v) :: ks.map (·, v)) := by
    have hkeys : m.newKeys (k :: ks) = m.newKeys ks := by
      rw [newKeys, List.toFinset_cons, Finset.insert_eq_of_mem (List.mem_toFinset.2 hk), newKeys]
    rw [allFit_iff]
    simpa [Function.comp_def, hkeys, Spare] using h
  have hrest := allFit_iff.1 hfit.2
  simpa [Function.comp_def, Spare] using hrest

/-! ## Renamed keys -/

section Rename

variable {κ' α' : Type} [DecidableEq κ'] {g : κ → κ'} (hg : Function.Injective g) (f : α → α')

include hg

/-- Under an injective renaming of the keys, the last values are those of the renamed keys. -/
theorem lastValue_map (l : List (κ × α)) (k : κ) :
    lastValue (l.map (Prod.map g f)) (g k) = (lastValue l k).map f := by
  induction l using List.reverseRecOn with
  | nil => rfl
  | append_singleton l p ih =>
    have hkey : (Prod.map g f p).1 = g p.1 := rfl
    rw [List.map_append, List.map_singleton, lastValue_append_singleton,
      lastValue_append_singleton, ih, hkey]
    by_cases hk : k = p.1
    · rw [if_pos hk, if_pos (congrArg g hk)]
      rfl
    · rw [if_neg hk, if_neg (fun h => hk (hg h))]

theorem firstKeys_map (l : List (κ × α)) :
    firstKeys cap (l.map (Prod.map g f)) = (firstKeys cap l).map g := by
  induction l using List.reverseRecOn with
  | nil => simp [firstKeys]
  | append_singleton l p ih =>
    have hmem : (Prod.map g f p).1 ∈ (l.map (Prod.map g f)).map Prod.fst ↔ p.1 ∈ l.map Prod.fst := by
      rw [List.map_map]
      have hcomp : Prod.fst ∘ Prod.map g f = g ∘ Prod.fst := rfl
      rw [hcomp, ← List.map_map]
      exact List.mem_map_of_injective hg
    rw [List.map_append, List.map_singleton, firstKeys_append_singleton,
      firstKeys_append_singleton, ih, List.length_map]
    simp only [hmem]
    split_ifs
    · rfl
    · rw [List.map_append, List.map_singleton]
      rfl

end Rename

end BoundedMap

end ChainingBox.Lib
