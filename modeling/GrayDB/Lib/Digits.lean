import Mathlib.Algebra.Ring.Int.Defs
import Mathlib.Algebra.Ring.Nat
import Mathlib.Tactic.Common
import Mathlib.Data.List.Basic
import Mathlib.Data.List.Induction

/-!
# Fixed-width big-endian digits

`beDigits b w n` is the number `n` written with exactly `w` digits in base
`b`, most significant digit first.  Base 256 is the network byte order of a
machine word; base 16 is a zero-padded hexadecimal name.

There are two groups.

* The value.  `beValue_beDigits` reads the number back modulo `b ^ w`.
* The order.  `beDigits_lt` says that, below `b ^ w`, the dictionary order
  of the digit strings is the order of the numbers.  A directory that lists
  its files by name therefore lists zero-padded numbers in numeric order.
-/

namespace Lib

/-- `n` in base `b` with exactly `w` digits, most significant first.  Digits
above the width are lost. -/
def beDigits (b : Nat) : Nat → Nat → List Nat
  | 0, _ => []
  | w + 1, n => beDigits b w (n / b) ++ [n % b]

/-- The number that a string of base-`b` digits stands for. -/
def beValue (b : Nat) (ds : List Nat) : Nat :=
  ds.foldl (fun acc d => acc * b + d) 0

@[simp] theorem length_beDigits (b w n : Nat) : (beDigits b w n).length = w := by
  induction w generalizing n with
  | zero => rfl
  | succ w ih => simp [beDigits, ih]

theorem beValue_append_singleton (b : Nat) (ds : List Nat) (d : Nat) :
    beValue b (ds ++ [d]) = beValue b ds * b + d := by
  simp [beValue, List.foldl_append]

/-- Reading the digits back gives the number, up to the width. -/
theorem beValue_beDigits (b w n : Nat) :
    beValue b (beDigits b w n) = n % b ^ w := by
  induction w generalizing n with
  | zero => simp [beDigits, beValue, Nat.mod_one]
  | succ w ih =>
    rw [beDigits, beValue_append_singleton, ih, Nat.pow_succ, Nat.mul_comm (b ^ w) b,
      Nat.mod_mul, Nat.mul_comm _ b, Nat.add_comm]

/-- A number below `b ^ w` is read back exactly. -/
theorem beValue_beDigits_of_lt {b w n : Nat} (h : n < b ^ w) :
    beValue b (beDigits b w n) = n := by
  rw [beValue_beDigits, Nat.mod_eq_of_lt h]

theorem beDigits_lt_base {b : Nat} (hb : 0 < b) (w n : Nat) :
    ∀ d ∈ beDigits b w n, d < b := by
  induction w generalizing n with
  | zero => simp [beDigits]
  | succ w ih =>
    intro d hd
    rw [beDigits, List.mem_append, List.mem_singleton] at hd
    rcases hd with hd | rfl
    · exact ih _ d hd
    · exact Nat.mod_lt _ hb

/-- Dictionary order of two strings of one length, extended by one digit. -/
private theorem append_singleton_lt {xs ys : List Nat} {x y : Nat}
    (hlen : xs.length = ys.length) (h : xs < ys ∨ xs = ys ∧ x < y) :
    xs ++ [x] < ys ++ [y] := by
  induction xs generalizing ys with
  | nil =>
    cases ys with
    | nil =>
      rcases h with h | ⟨_, h⟩
      · exact absurd h (by simp)
      · exact List.cons_lt_cons_iff.mpr (Or.inl h)
    | cons _ _ => simp at hlen
  | cons a xs ih =>
    cases ys with
    | nil => simp at hlen
    | cons c ys =>
      have hlen' : xs.length = ys.length := by simpa using hlen
      rw [List.cons_append, List.cons_append, List.cons_lt_cons_iff]
      rcases h with h | ⟨he, h⟩
      · rw [List.cons_lt_cons_iff] at h
        rcases h with h | ⟨rfl, h⟩
        · exact Or.inl h
        · exact Or.inr ⟨rfl, ih hlen' (Or.inl h)⟩
      · obtain ⟨rfl, rfl⟩ := List.cons.inj he
        exact Or.inr ⟨rfl, ih rfl (Or.inr ⟨rfl, h⟩)⟩

/-- The dictionary order of fixed-width digit strings is the numeric order. -/
theorem beDigits_lt {b w m n : Nat} (hn : n < b ^ w) (h : m < n) :
    beDigits b w m < beDigits b w n := by
  induction w generalizing m n with
  | zero => simp at hn; omega
  | succ w ih =>
    have hb : 0 < b := by
      rcases Nat.eq_zero_or_pos b with rfl | hb
      · simp at hn
      · exact hb
    have hdiv : n / b < b ^ w := by
      rw [Nat.div_lt_iff_lt_mul hb, ← Nat.pow_succ]
      exact hn
    rw [beDigits, beDigits]
    apply append_singleton_lt (by simp)
    rcases Nat.lt_or_ge (m / b) (n / b) with hlt | hge
    · exact Or.inl (ih hdiv hlt)
    · have heq : m / b = n / b :=
        Nat.le_antisymm (Nat.div_le_div_right (Nat.le_of_lt h)) hge
      refine Or.inr ⟨by rw [heq], ?_⟩
      have hm := Nat.div_add_mod m b
      have hn' := Nat.div_add_mod n b
      rw [heq] at hm
      omega

/-! ## Bytes -/

/-- The `w`-byte big-endian image of `n`. -/
def beBytes (w n : Nat) : List UInt8 :=
  (beDigits 256 w n).map UInt8.ofNat

/-- The number a big-endian byte string stands for. -/
def beNat (bs : List UInt8) : Nat :=
  beValue 256 (bs.map UInt8.toNat)

@[simp] theorem length_beBytes (w n : Nat) : (beBytes w n).length = w := by
  simp [beBytes]

theorem beNat_beBytes {w n : Nat} (h : n < 256 ^ w) : beNat (beBytes w n) = n := by
  have hid : (beBytes w n).map UInt8.toNat = beDigits 256 w n := by
    rw [beBytes, List.map_map]
    conv_rhs => rw [← List.map_id (beDigits 256 w n)]
    refine List.map_congr_left fun d hd => ?_
    have hd' : d < 256 := beDigits_lt_base (by omega) w n d hd
    simpa using Nat.mod_eq_of_lt hd'
  rw [beNat, hid, beValue_beDigits_of_lt h]

/-- `w` bytes stand for a number of `w` bytes. -/
theorem beNat_lt (bs : List UInt8) : beNat bs < 256 ^ bs.length := by
  induction bs using List.reverseRecOn with
  | nil => exact Nat.one_pos
  | append_singleton bs b ih =>
    have hb : b.toNat < 256 := b.toNat_lt
    rw [beNat, List.map_append, List.map_singleton, beValue_append_singleton, List.length_append,
      List.length_singleton, Nat.pow_succ]
    change beNat bs * 256 + b.toNat < _
    omega

/-! ## Decimal numbers -/

theorem toString_nat_injective : Function.Injective (toString : ℕ → String) := by
  intro m n h
  have hdigits : Nat.toDigits 10 m = Nat.toDigits 10 n := by
    rw [← Nat.toList_repr, ← Nat.toList_repr]
    exact congrArg String.toList h
  rw [← Nat.ofDigitChars_ten_toDigits (n := m), hdigits, Nat.ofDigitChars_ten_toDigits]

/-! ## Words in a text -/

/-- A word in a text that shares no character with some part of the text is in front of that
part or behind it. -/
theorem infix_around {α : Type} {w a d b : List α} (hd : d ≠ []) (hw : ∀ c ∈ w, c ∉ d)
    (h : w <:+: a ++ d ++ b) : w <:+: a ∨ w <:+: b := by
  -- where pieces of `w` and `d` begin alike, one of them is empty
  have hapart : ∀ {u u' v v' : List α}, u ⊆ w → v ⊆ d → u ++ u' = v ++ v' → u = [] ∨ v = [] := by
    intro u u' v v' hu hv heq
    cases u with
    | nil => exact Or.inl rfl
    | cons c u =>
      cases v with
      | nil => exact Or.inr rfl
      | cons c' v =>
        obtain ⟨rfl, -⟩ := List.cons.inj heq
        exact absurd (hv List.mem_cons_self) (hw c (hu List.mem_cons_self))
  obtain ⟨s, t, h⟩ := h
  rw [List.append_assoc, List.append_assoc] at h
  obtain ⟨rest, rfl, hrest⟩ | ⟨rest, rfl, hrest⟩ := List.append_eq_append_iff.mp h
  · -- the word begins in front of `d`
    left
    obtain ⟨x, rfl, -⟩ | ⟨x, rfl, hx⟩ := List.append_eq_append_iff.mp hrest
    · exact List.infix_append' s w x
    · obtain rfl | hnil := hapart (List.subset_append_right _ _) (List.Subset.refl d) hx.symm
      · rw [List.append_nil]
        exact List.infix_append_right
      · exact absurd hnil hd
  · obtain ⟨x, rfl, hx⟩ | ⟨x, rfl, rfl⟩ := List.append_eq_append_iff.mp hrest.symm
    · obtain rfl | rfl := hapart (List.Subset.refl w) (List.subset_append_right _ _) hx
      · exact Or.inl (List.nil_infix)
      · exact Or.inr ⟨[], t, hx⟩
    · exact Or.inr (List.infix_append' x w t)

/-- The digits of a decimal number, between two parts without the word. -/
theorem not_infix_decimal {w a b : List Char} (n : Nat) (hw : ∀ c ∈ w, c.isDigit = false)
    (ha : ¬ w <:+: a) (hb : ¬ w <:+: b) : ¬ w <:+: a ++ Nat.toDigits 10 n ++ b := by
  intro h
  have hapart : ∀ c ∈ w, c ∉ Nat.toDigits 10 n := by
    intro c hc hmem
    have hdigit := Nat.isDigit_of_mem_toDigits (by omega) (by omega) hmem
    rw [hw c hc] at hdigit
    exact nomatch hdigit
  exact (infix_around Nat.toDigits_ne_nil hapart h).elim ha hb

end Lib
