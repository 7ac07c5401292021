import Mathlib.Data.List.Infix
import Mathlib.Tactic.Common

/-!
# Messages in a stream

A sender writes messages one after the other.  A reader keeps the bytes that have come in
and takes the messages off the front, as soon as they are whole.

* `Framing`: the decoder takes a whole message and leaves a cut one alone.
* `Feed.Of`: what has been taken, what is kept and what is still on the wire make up the
  stream.  Reading and taking keep it, in any order.
* `Feed.Of.whole_or_cut`: the decoder takes the next message if it is whole, and nothing else.
* `Feed.Of.drained`: with nothing on the wire, the decoder stops after the last message.
-/

namespace Lib

variable {α β ε : Type}

/-- The decoder finds the encoding of every message that can be sent.  It returns what it
leaves of its input. -/
structure Framing (sendable : α → Prop) (enc : α → List β)
    (next : List β → Except ε (Option α) × List β) : Prop where
  nil : next [] = (.ok none, [])
  whole : ∀ a rest, sendable a → next (enc a ++ rest) = (.ok (some a), rest)
  cut : ∀ a b, sendable a → b <+: enc a → b ≠ enc a → next b = (.ok none, b)

/-- What has been taken from a stream, what has been read of it, and the rest. -/
structure Feed (α β : Type) where
  taken : List α
  buf : List β
  wire : List β

namespace Feed

/-- The feed is one of these messages. -/
def Of (enc : α → List β) (msgs : List α) (f : Feed α β) : Prop :=
  ∃ later, msgs = f.taken ++ later ∧ f.buf ++ f.wire = later.flatMap enc

/-- The next message is whole, and the decoder takes its bytes and no others. -/
def Whole (enc : α → List β) (next : List β → Except ε (Option α) × List β) (msgs : List α)
    (f : Feed α β) : Prop :=
  ∃ a later rest, msgs = f.taken ++ a :: later ∧ f.buf = enc a ++ rest ∧
    rest ++ f.wire = later.flatMap enc ∧ next f.buf = (.ok (some a), rest)

/-- Some of the next message is missing, or there is none, and the decoder takes nothing. -/
def Cut (enc : α → List β) (next : List β → Except ε (Option α) × List β) (msgs : List α)
    (f : Feed α β) : Prop :=
  next f.buf = (.ok none, f.buf) ∧
    ∀ a later, msgs = f.taken ++ a :: later → f.buf.length < (enc a).length

namespace Of

variable {sendable : α → Prop} {enc : α → List β} {next : List β → Except ε (Option α) × List β}
  {msgs : List α} {f : Feed α β}

/-- All of it is on the wire. -/
theorem start : Of enc msgs ⟨[], [], msgs.flatMap enc⟩ := ⟨msgs, rfl, rfl⟩

/-- Some of the wire comes in. -/
theorem read (h : f.Of enc msgs) (n : Nat) :
    Of enc msgs ⟨f.taken, f.buf ++ f.wire.take n, f.wire.drop n⟩ := by
  obtain ⟨later, hmsgs, hlater⟩ := h
  exact ⟨later, hmsgs, by rw [List.append_assoc, List.take_append_drop, hlater]⟩

/-- The buffer is what has been read and is in no message that has been taken. -/
theorem split (h : f.Of enc msgs) :
    f.taken.flatMap enc ++ f.buf ++ f.wire = msgs.flatMap enc := by
  obtain ⟨later, rfl, hlater⟩ := h
  rw [List.append_assoc, hlater, List.flatMap_append]

/-- The next message is taken if it is whole, and nothing else. -/
theorem whole_or_cut (h : f.Of enc msgs) (hf : Framing sendable enc next)
    (hsendable : ∀ a ∈ msgs, sendable a) : f.Whole enc next msgs ∨ f.Cut enc next msgs := by
  obtain ⟨later, rfl, hlater⟩ := h
  cases later with
  | nil =>
    refine Or.inr ⟨?_, fun a later heq => ?_⟩
    · rw [(List.append_eq_nil_iff.mp hlater).1]
      exact hf.nil
    · exact nomatch List.append_cancel_left heq
  | cons a later =>
    have ha : sendable a := hsendable a (by simp)
    rw [List.flatMap_cons] at hlater
    by_cases hle : (enc a).length ≤ f.buf.length
    · obtain ⟨rest, hrest⟩ : enc a <+: f.buf :=
        List.prefix_of_prefix_length_le ⟨_, hlater.symm⟩ (List.prefix_append _ _) hle
      refine Or.inl ⟨a, later, rest, rfl, hrest.symm, ?_, ?_⟩
      · rw [← hrest, List.append_assoc] at hlater
        exact List.append_cancel_left hlater
      · rw [← hrest, hf.whole a rest ha]
    · have hcut : f.buf <+: enc a :=
        List.prefix_of_prefix_length_le ⟨_, hlater⟩ (List.prefix_append _ _) (Nat.le_of_not_le hle)
      refine Or.inr ⟨hf.cut a f.buf ha hcut fun heq => hle (by rw [heq]), fun a' later' heq => ?_⟩
      obtain ⟨rfl, -⟩ := List.cons.inj (List.append_cancel_left heq)
      exact Nat.lt_of_not_le hle

/-- The decoder takes a message. -/
theorem take (h : f.Of enc msgs) (hf : Framing sendable enc next)
    (hsendable : ∀ a ∈ msgs, sendable a) {a : α} {rest : List β}
    (hnext : next f.buf = (.ok (some a), rest)) : Of enc msgs ⟨f.taken ++ [a], rest, f.wire⟩ := by
  obtain ⟨a', later, rest', rfl, -, hrest, heq⟩ | ⟨heq, -⟩ := h.whole_or_cut hf hsendable
  · rw [hnext] at heq
    obtain ⟨hvalue, rfl⟩ := Prod.mk.inj heq
    obtain rfl := Option.some.inj (Except.ok.inj hvalue)
    exact ⟨later, by rw [List.append_assoc, List.singleton_append], hrest⟩
  · rw [hnext] at heq
    exact nomatch Except.ok.inj (Prod.mk.inj heq).1

/-- The decoder takes nothing. -/
theorem cut (h : f.Of enc msgs) (hf : Framing sendable enc next)
    (hsendable : ∀ a ∈ msgs, sendable a) {rest : List β}
    (hnext : next f.buf = (.ok none, rest)) : f.Cut enc next msgs ∧ rest = f.buf := by
  obtain ⟨_, _, _, -, -, -, heq⟩ | hcut := h.whole_or_cut hf hsendable
  · rw [hnext] at heq
    exact nomatch Except.ok.inj (Prod.mk.inj heq).1
  · exact ⟨hcut, (Prod.mk.inj (hnext.symm.trans hcut.1)).2⟩

/-- The decoder has no error for the stream. -/
theorem next_ne_error (h : f.Of enc msgs) (hf : Framing sendable enc next)
    (hsendable : ∀ a ∈ msgs, sendable a) {e : ε} {rest : List β} :
    next f.buf ≠ (.error e, rest) := by
  intro hnext
  obtain ⟨_, _, _, -, -, -, heq⟩ | ⟨heq, -⟩ := h.whole_or_cut hf hsendable
  · rw [hnext] at heq
    exact nomatch (Prod.mk.inj heq).1
  · rw [hnext] at heq
    exact nomatch (Prod.mk.inj heq).1

/-- With nothing on the wire, the decoder stops after the last message. -/
theorem drained (h : f.Of enc msgs) (hcut : f.Cut enc next msgs) (hwire : f.wire = []) :
    f.taken = msgs ∧ f.buf = [] := by
  obtain ⟨later, rfl, hlater⟩ := h
  rw [hwire, List.append_nil] at hlater
  cases later with
  | nil => exact ⟨(List.append_nil _).symm, hlater⟩
  | cons a later =>
    have hlt := hcut.2 a later rfl
    rw [hlater, List.flatMap_cons, List.length_append] at hlt
    exact absurd hlt (by omega)

end Of

end Feed

end Lib
