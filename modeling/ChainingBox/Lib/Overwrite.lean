import ChainingBox.Lib.Bytes

/-!
# A buffer written again and again from its start

Byte strings of different lengths are written to the start of one buffer. Each of them covers the
front of the ones before it, and leaves the rest of them behind itself: a byte of the buffer is that
of the last string that was long enough to reach it (`load8_rewrite`).

A buffer read as a C string ends at its first zero. A string written without a terminator is read
back only if a zero already stands behind it (`cstring_store_iff`).
-/

namespace ChainingBox.Lib

/-- The buffer after the strings are written to its start, in order. -/
def rewrite (buf : Bytes) (bs : List Bytes) : Bytes := bs.foldl (fun buf b => store buf 0 b) buf

/-- The byte at `p` of the last string that reaches it, or else `x`. -/
def lastByte (bs : List Bytes) (p : ℕ) (x : Byte) : Byte :=
  (bs.filter fun b => p < b.length).getLast?.elim x fun b => load8 b p

theorem rewrite_append (buf : Bytes) (bs : List Bytes) (b : Bytes) :
    rewrite buf (bs ++ [b]) = store (rewrite buf bs) 0 b := by
  rw [rewrite, List.foldl_append]
  rfl

theorem lastByte_append (bs : List Bytes) (b : Bytes) (p : ℕ) (x : Byte) :
    lastByte (bs ++ [b]) p x = if p < b.length then load8 b p else lastByte bs p x := by
  unfold lastByte
  rw [List.filter_append]
  split_ifs with hp
  · rw [List.filter_cons_of_pos (by simpa using hp), List.filter_nil, List.getLast?_concat]
    rfl
  · rw [List.filter_cons_of_neg (by simpa using hp), List.filter_nil, List.append_nil]

/-- What the writes leave in the buffer. -/
theorem load8_rewrite {buf : Bytes} {bs : List Bytes} (h : ∀ b ∈ bs, b.length ≤ buf.length) :
    (rewrite buf bs).length = buf.length ∧
      ∀ p, load8 (rewrite buf bs) p = lastByte bs p (load8 buf p) := by
  induction bs using List.reverseRecOn with
  | nil => exact ⟨rfl, fun p => rfl⟩
  | append_singleton bs b ih =>
    obtain ⟨hlen, hbytes⟩ := ih fun b' hb' => h b' (List.mem_append_left _ hb')
    have hb : 0 + b.length ≤ (rewrite buf bs).length := by
      rw [hlen, Nat.zero_add]
      exact h b (List.mem_append_right _ (List.mem_singleton_self b))
    refine ⟨?_, fun p => ?_⟩
    · rw [rewrite_append, store_length hb, hlen]
    · rw [rewrite_append, load8_store hb, lastByte_append, hbytes]
      simp only [Nat.zero_le, true_and, Nat.zero_add, Nat.sub_zero]

/-- Strings without zeros leave a zero at `p` exactly if none of them reaches `p`. -/
theorem lastByte_eq_zero_iff {bs : List Bytes} (hbs : ∀ b ∈ bs, 0 ∉ b) (p : ℕ) :
    lastByte bs p 0 = 0 ↔ ∀ b ∈ bs, b.length ≤ p := by
  induction bs using List.reverseRecOn with
  | nil => exact ⟨fun _ b hb => absurd hb List.not_mem_nil, fun _ => rfl⟩
  | append_singleton bs b ih =>
    have hb : 0 ∉ b := hbs b (List.mem_append_right _ (List.mem_singleton_self b))
    rw [lastByte_append, List.forall_mem_append, List.forall_mem_singleton]
    split_ifs with hp
    · have hbyte : load8 b p = b[p] := by simp [load8, hp]
      refine ⟨fun h0 => absurd ?_ hb, fun hall => absurd hp (Nat.not_lt.2 hall.2)⟩
      rw [← h0, hbyte]
      exact List.getElem_mem hp
    · rw [ih fun b' hb' => hbs b' (List.mem_append_left _ hb')]
      exact (and_iff_left (Nat.le_of_not_lt hp)).symm

/-! ## C strings -/

/-- The characters of a C string, without its terminator. -/
abbrev CString := { s : Bytes // 0 ∉ s }

/-- The C string in a buffer, if it is terminated there. -/
def cstring (b : Bytes) : Option Bytes :=
  if 0 ∈ b then some (b.takeWhile (· ≠ 0)) else none

/-- A string written without its terminator is read back exactly if there is a zero behind it. -/
theorem cstring_store_iff {buf s : Bytes} (hs : 0 ∉ s) (h : s.length < buf.length) :
    cstring (store buf 0 s) = some s ↔ load8 buf s.length = 0 := by
  have hbyte : load8 buf s.length = buf[s.length] := by simp [load8, h]
  have hstore : store buf 0 s = s ++ buf[s.length] :: buf.drop (s.length + 1) := by
    rw [List.getElem_cons_drop]
    simp [store]
  have hpre : ∀ c ∈ s, decide (c ≠ 0) = true := fun c hc => by
    simp only [ne_eq, decide_eq_true_eq]
    rintro rfl
    exact hs hc
  rw [hbyte, hstore, cstring, List.takeWhile_append_of_pos hpre]
  generalize buf[s.length] = x
  constructor
  · intro hread
    by_contra hx
    rw [List.takeWhile_cons_of_pos (by simpa using hx)] at hread
    split_ifs at hread
    -- The string that is read goes on with the byte behind `s`.
    have hlen := congrArg List.length (Option.some.inj hread)
    rw [List.length_append, List.length_cons] at hlen
    omega
  · rintro rfl
    rw [if_pos (List.mem_append_right _ List.mem_cons_self),
      List.takeWhile_cons_of_neg (by simp), List.append_nil]

/-- Of strings that are written over zeros, the last is read back exactly if it is not shorter than
the ones before it. -/
theorem cstring_rewrite_iff {n : ℕ} {bs : List Bytes} {s : Bytes} (hbs : ∀ b ∈ bs, 0 ∉ b)
    (hn : ∀ b ∈ bs, b.length ≤ n) (hs : 0 ∉ s) (h : s.length < n) :
    cstring (rewrite (List.replicate n 0) (bs ++ [s])) = some s ↔ ∀ b ∈ bs, b.length ≤ s.length := by
  have hfit : ∀ b ∈ bs, b.length ≤ (List.replicate n (0 : Byte)).length := by
    rwa [List.length_replicate]
  obtain ⟨hlen, hbytes⟩ := load8_rewrite hfit
  have hzero : load8 (List.replicate n 0) s.length = 0 := by simp [load8, h]
  have hlt : s.length < (rewrite (List.replicate n 0) bs).length := by
    rwa [hlen, List.length_replicate]
  rw [rewrite_append, cstring_store_iff hs hlt, hbytes, hzero, lastByte_eq_zero_iff hbs]

end ChainingBox.Lib
