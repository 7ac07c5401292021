import Mathlib.Tactic.Common
import Mathlib.Data.List.Infix

/-!
# Parsers that read an encoding

A parser is a state of the tokens that are left, with errors.  `Parses p enc a` says
that `p` takes exactly the tokens `enc` off the front, whatever follows them, and
gives `a`; and that `p` fails on every proper prefix of `enc`.  A format whose fields
are read one after the other has this property when each field has it:
`Parses.bind` puts the two halves of a sequence together.

`Avoids bad p b Q` is the weakest precondition for one error: on the tokens `b` the
parser does not fail with `bad`, and what it returns satisfies `Q`.
-/

namespace Lib

universe u v

variable {τ α β : Type u} {ε : Type v}

/-- The parser takes exactly these tokens, as this value, and no fewer. -/
structure Parses (p : StateT (List τ) (Except ε) α) (enc : List τ) (a : α) : Prop where
  whole : ∀ rest, p.run (enc ++ rest) = .ok (a, rest)
  cut : ∀ b, b <+: enc → b ≠ enc → ∃ e, p.run b = .error e

namespace Parses

variable {p : StateT (List τ) (Except ε) α} {q : α → StateT (List τ) (Except ε) β}
  {enc enc' : List τ} {a : α} {b : β}

theorem pure (a : α) : Parses (Pure.pure a : StateT (List τ) (Except ε) α) [] a where
  whole := fun _ => rfl
  cut := fun _ hb hne => absurd (List.prefix_nil.mp hb) hne

/-- One field after the other.  A cut falls into the first, or leaves the first whole
and falls into the second. -/
theorem bind (hp : Parses p enc a) (hq : Parses (q a) enc' b) :
    Parses (p >>= q) (enc ++ enc') b where
  whole := by
    intro rest
    rw [StateT.run_bind, List.append_assoc, hp.whole]
    exact hq.whole rest
  cut := by
    intro c hc hne
    rw [StateT.run_bind]
    by_cases hwhole : enc <+: c
    · obtain ⟨d, rfl⟩ := hwhole
      have hd : d <+: enc' := (List.prefix_append_right_inj enc).mp hc
      obtain ⟨e, he⟩ := hq.cut d hd fun h => hne (by rw [h])
      exact ⟨e, by rw [hp.whole]; exact he⟩
    · have hcut : c <+: enc :=
        (List.prefix_or_prefix_of_prefix hc (List.prefix_append enc enc')).resolve_right hwhole
      obtain ⟨e, he⟩ := hp.cut c hcut fun h => hwhole (h ▸ List.prefix_refl _)
      exact ⟨e, by rw [he]; rfl⟩

/-- The last field of a sequence, whose value is wrapped. -/
theorem bind_pure {f : α → β} (hp : Parses p enc a) :
    Parses (p >>= fun a => Pure.pure (f a)) enc (f a) := by
  have h : Parses (p >>= fun a => Pure.pure (f a)) (enc ++ []) (f a) := hp.bind (Parses.pure _)
  rwa [List.append_nil] at h

/-- Reading the encoding and nothing else. -/
theorem run_eq (hp : Parses p enc a) : p.run enc = .ok (a, []) := by
  have h := hp.whole []
  rwa [List.append_nil] at h

end Parses

/-! ## Parsers that do not fail with a given error -/

/-- On `b` the parser does not fail with `bad`, and `Q` holds of its value and of the
tokens that it leaves. -/
def Avoids (bad : ε) (p : StateT (List τ) (Except ε) α) (b : List τ)
    (Q : α → List τ → Prop) : Prop :=
  match p.run b with
  | .error e => e ≠ bad
  | .ok (a, rest) => Q a rest

namespace Avoids

variable {bad : ε} {p : StateT (List τ) (Except ε) α} {q : α → StateT (List τ) (Except ε) β}
  {b : List τ}

theorem pure_iff {a : α} {Q : α → List τ → Prop} :
    Avoids bad (Pure.pure a : StateT (List τ) (Except ε) α) b Q ↔ Q a b := Iff.rfl

theorem bind_iff {Q : β → List τ → Prop} :
    Avoids bad (p >>= q) b Q ↔ Avoids bad p b fun a rest => Avoids bad (q a) rest Q := by
  rw [Avoids, Avoids, StateT.run_bind]
  cases p.run b with
  | error e => exact Iff.rfl
  | ok r => exact Iff.rfl

theorem congr {Q Q' : α → List τ → Prop} (h : ∀ a rest, Q a rest ↔ Q' a rest) :
    Avoids bad p b Q ↔ Avoids bad p b Q' := by
  rw [Avoids, Avoids]
  cases p.run b with
  | error e => exact Iff.rfl
  | ok r => exact h r.1 r.2

/-- A sequence whose second half asks the same of the tokens whatever was read. -/
theorem bind_const {Q : β → List τ → Prop} {K : List τ → Prop} {R : Prop}
    (hp : (Avoids bad p b fun _ => K) ↔ R)
    (hq : ∀ a rest, Avoids bad (q a) rest Q ↔ K rest) :
    Avoids bad (p >>= q) b Q ↔ R := by
  rw [bind_iff, congr hq, hp]

/-- The last step of a sequence, whose value is wrapped. -/
theorem bind_pure {f : α → β} {K : List τ → Prop} :
    (Avoids bad (p >>= fun a => Pure.pure (f a)) b fun _ => K) ↔ Avoids bad p b fun _ => K :=
  bind_const Iff.rfl fun _ _ => Iff.rfl

/-- With nothing asked of the result, only the error is left. -/
theorem true_iff : (Avoids bad p b fun _ _ => True) ↔ p.run b ≠ .error bad := by
  rw [Avoids]
  cases p.run b with
  | error e => simp
  | ok r => simp

end Avoids

end Lib
