import Mathlib.Algebra.Ring.Int.Defs
import Mathlib.Algebra.Ring.Nat
import Mathlib.Tactic.Common

/-!
# Numbers as text

The standard library reads a number of a machine width, digit by digit, and gives up as soon
as the digits so far are too many.

* `fromStrRadix`: the reader.
* `radixValue`: the number that the text stands for, of any size.
* `fromStrRadix_eq_ok`: the reader has the numbers of the width, and no others.
* `upperHex`: the digits in capitals, and that they stand for their number.
-/

namespace Lib

/-- What `from_str_radix` objects to. -/
inductive IntErrorKind where
  | empty
  | invalidDigit
  | posOverflow
deriving DecidableEq, Repr

def IntErrorKind.text : IntErrorKind → String
  | .empty => "cannot parse integer from empty string"
  | .invalidDigit => "invalid digit found in string"
  | .posOverflow => "number too large to fit in target type"

/-- `char::to_digit` -/
def toDigit (radix : Nat) (c : Char) : Option Nat :=
  let d :=
    if '0' ≤ c ∧ c ≤ '9' then some (c.toNat - '0'.toNat)
    else if 'a' ≤ c ∧ c ≤ 'z' then some (c.toNat - 'a'.toNat + 10)
    else if 'A' ≤ c ∧ c ≤ 'Z' then some (c.toNat - 'A'.toNat + 10)
    else none
  d.filter (· < radix)

/-- The digits behind a sign, if there is one. -/
def afterSign : List Char → Except IntErrorKind (List Char)
  | [] => .error .empty
  | ['+'] => .error .invalidDigit
  | ['-'] => .error .invalidDigit
  | '+' :: cs => .ok cs
  | cs => .ok cs

/-- The loop of `from_str_radix`, for an unsigned number of `w` bits. -/
def readDigits (w radix : Nat) (acc : Nat) : List Char → Except IntErrorKind Nat
  | [] => .ok acc
  | c :: cs =>
    match toDigit radix c with
    | none => .error .invalidDigit
    | some d =>
      if 2 ^ w ≤ acc * radix then .error .posOverflow
      else if 2 ^ w ≤ acc * radix + d then .error .posOverflow
      else readDigits w radix (acc * radix + d) cs

def fromStrRadix (w radix : Nat) (s : List Char) : Except IntErrorKind Nat := do
  let cs ← afterSign s
  readDigits w radix 0 cs

/-- What the digits add up to, whatever their number. -/
def digitsValue (radix : Nat) (acc : Nat) : List Char → Option Nat
  | [] => some acc
  | c :: cs => (toDigit radix c).bind fun d => digitsValue radix (acc * radix + d) cs

/-- The number that a text stands for. -/
def radixValue (radix : Nat) (s : List Char) : Option Nat :=
  (afterSign s).toOption.bind (digitsValue radix 0)

section

variable {w radix acc n : Nat} {c : Char} {cs : List Char}

@[simp] theorem digitsValue_nil : digitsValue radix acc [] = some acc := rfl

theorem digitsValue_cons_eq_some : digitsValue radix acc (c :: cs) = some n ↔
    ∃ d, toDigit radix c = some d ∧ digitsValue radix (acc * radix + d) cs = some n :=
  Option.bind_eq_some_iff

/-- More digits, more. -/
theorem le_of_digitsValue (hradix : 0 < radix) (h : digitsValue radix acc cs = some n) :
    acc ≤ n := by
  induction cs generalizing acc with
  | nil => exact Nat.le_of_eq (Option.some.inj h)
  | cons c cs ih =>
    obtain ⟨d, -, hrest⟩ := digitsValue_cons_eq_some.mp h
    calc acc ≤ acc * radix := Nat.le_mul_of_pos_right acc hradix
      _ ≤ acc * radix + d := Nat.le_add_right _ d
      _ ≤ n := ih hrest

theorem digitsValue_append_singleton {v d : Nat} (hcs : digitsValue radix acc cs = some v)
    (hc : toDigit radix c = some d) :
    digitsValue radix acc (cs ++ [c]) = some (v * radix + d) := by
  induction cs generalizing acc with
  | nil =>
    obtain rfl := Option.some.inj hcs
    exact digitsValue_cons_eq_some.mpr ⟨d, hc, rfl⟩
  | cons c' cs ih =>
    obtain ⟨d', hc', hrest⟩ := digitsValue_cons_eq_some.mp hcs
    exact digitsValue_cons_eq_some.mpr ⟨d', hc', ih hrest⟩

theorem isSome_of_digitsValue (h : digitsValue radix acc cs = some n) :
    ∀ c ∈ cs, (toDigit radix c).isSome := by
  induction cs generalizing acc with
  | nil => exact fun c hc => absurd hc List.not_mem_nil
  | cons c cs ih =>
    obtain ⟨d, hd, hrest⟩ := digitsValue_cons_eq_some.mp h
    intro c' hc'
    rcases List.mem_cons.mp hc' with rfl | hmem
    · rw [hd]
      rfl
    · exact ih hrest c' hmem

/-- The loop ends with what the digits add up to, if that has room. -/
theorem readDigits_eq_ok (hradix : 0 < radix) (hacc : acc < 2 ^ w) :
    readDigits w radix acc cs = .ok n ↔ digitsValue radix acc cs = some n ∧ n < 2 ^ w := by
  induction cs generalizing acc with
  | nil =>
    rw [readDigits, digitsValue_nil, Except.ok.injEq, Option.some.injEq]
    exact ⟨fun h => ⟨h, h ▸ hacc⟩, fun h => h.1⟩
  | cons c cs ih =>
    rw [readDigits, digitsValue_cons_eq_some]
    cases hc : toDigit radix c with
    | none => exact ⟨nofun, fun ⟨⟨d, hd, _⟩, _⟩ => nomatch hd⟩
    | some d =>
      -- too much here is too much at the end
      have hstop : 2 ^ w ≤ acc * radix + d →
          ¬ ((∃ d', some d = some d' ∧ digitsValue radix (acc * radix + d') cs = some n)
            ∧ n < 2 ^ w) := by
        rintro hbig ⟨⟨d', heq, hrest⟩, hn⟩
        rw [← Option.some.inj heq] at hrest
        exact absurd (le_of_digitsValue hradix hrest) (by omega)
      dsimp only
      split_ifs with hmul hadd
      · exact ⟨nofun, fun h => absurd h (hstop (by omega))⟩
      · exact ⟨nofun, fun h => absurd h (hstop hadd)⟩
      · rw [ih (by omega)]
        simp

/-- The reader has the numbers of the width, and no others. -/
theorem fromStrRadix_eq_ok (hradix : 0 < radix) :
    fromStrRadix w radix cs = .ok n ↔ radixValue radix cs = some n ∧ n < 2 ^ w := by
  rw [fromStrRadix, radixValue]
  cases afterSign cs with
  | error e => exact ⟨nofun, fun h => nomatch h.1⟩
  | ok digits => exact readDigits_eq_ok hradix (Nat.two_pow_pos w)

/-- A sign, or what else is no digit, is not in the digits. -/
theorem notMem_of_digitsValue (h : digitsValue radix acc cs = some n)
    (hc : ∀ radix, toDigit radix c = none) : c ∉ cs := by
  intro hmem
  have hsome := isSome_of_digitsValue h c hmem
  rw [hc radix] at hsome
  exact nomatch hsome

theorem afterSign_eq_ok {digits : List Char} (h : afterSign cs = .ok digits) :
    cs = digits ∨ cs = '+' :: digits := by
  rw [afterSign.eq_def] at h
  split at h
  · exact nomatch h
  · exact nomatch h
  · exact nomatch h
  · exact Or.inr (by rw [Except.ok.inj h])
  · exact Or.inl (Except.ok.inj h)

theorem notMem_of_radixValue (h : radixValue radix cs = some n)
    (hc : ∀ radix, toDigit radix c = none) (hplus : c ≠ '+') : c ∉ cs := by
  rw [radixValue] at h
  cases hsign : afterSign cs with
  | error kind =>
    rw [hsign] at h
    exact nomatch h
  | ok digits =>
    rw [hsign] at h
    have hdigits : c ∉ digits := notMem_of_digitsValue h hc
    rcases afterSign_eq_ok hsign with rfl | rfl
    · exact hdigits
    · rw [List.mem_cons, not_or]
      exact ⟨hplus, hdigits⟩

theorem radixValue_of_digitsValue (hne : cs ≠ []) (h : digitsValue radix 0 cs = some n) :
    radixValue radix cs = some n := by
  have hplus : '+' ∉ cs := notMem_of_digitsValue h fun _ => rfl
  have hminus : '-' ∉ cs := notMem_of_digitsValue h fun _ => rfl
  have hsign : afterSign cs = .ok cs := by
    rw [afterSign.eq_def]
    split
    · exact absurd rfl hne
    · exact absurd List.mem_cons_self hplus
    · exact absurd List.mem_cons_self hminus
    · exact absurd List.mem_cons_self hplus
    · rfl
  rw [radixValue, hsign]
  exact h

end

/-! ## Hexadecimal -/

/-- `{:X}` -/
def upperHex (n : Nat) : List Char := (Nat.toDigits 16 n).map Char.toUpper

theorem upperHex_ne_nil (n : Nat) : upperHex n ≠ [] :=
  fun h => Nat.toDigits_ne_nil (List.map_eq_nil_iff.mp h)

theorem toDigit_toUpper {d : Nat} (hd : d < 16) :
    toDigit 16 (Nat.digitChar d).toUpper = some d := by
  have hall : ∀ d : Fin 16, toDigit 16 (Nat.digitChar d).toUpper = some d.val := by decide
  exact hall ⟨d, hd⟩

theorem digitsValue_upperHex (n : Nat) : digitsValue 16 0 (upperHex n) = some n := by
  induction n using Nat.strongRecOn with
  | _ n ih =>
    by_cases hn : n < 16
    · rw [upperHex, Nat.toDigits_of_lt_base hn]
      exact digitsValue_cons_eq_some.mpr ⟨n, toDigit_toUpper hn, by simp⟩
    · have hlast : Nat.toDigits 16 n = Nat.toDigits 16 (n / 16) ++ [Nat.digitChar (n % 16)] :=
        Nat.toDigits_of_base_le (by omega) (by omega)
      rw [upperHex, hlast, List.map_append]
      have hsplit := digitsValue_append_singleton (ih (n / 16) (by omega))
        (toDigit_toUpper (Nat.mod_lt n (by omega)))
      rw [Nat.div_add_mod' n 16] at hsplit
      exact hsplit

theorem radixValue_upperHex (n : Nat) : radixValue 16 (upperHex n) = some n :=
  radixValue_of_digitsValue (upperHex_ne_nil n) (digitsValue_upperHex n)

theorem notMem_upperHex {c : Char} (hc : ∀ radix, toDigit radix c = none) (n : Nat) :
    c ∉ upperHex n := notMem_of_digitsValue (digitsValue_upperHex n) hc

end Lib
