import Mathlib.Data.List.Basic
import Mathlib.Data.List.Perm.Basic
import Mathlib.Data.Set.List
import Mathlib.Data.Set.Function
import Mathlib.Tactic.Lift

/-!
# Codes whose words end themselves

`SelfDelimiting enc S` says that a word of the code `enc`, for a value in `S`, can be
told from what follows it.

There are two groups.

* How such codes are made: a terminator that no word holds, the length of the word in
  front, and the words of the items of a list one after the other, for lists of one length.
* What they give: a concatenation of non-empty words has one reading
  (`SelfDelimiting.flatMap_inj`).
-/

namespace Lib

variable {α β : Type*}

/-- Two words that begin the same text are the word of one value. -/
def SelfDelimiting (enc : α → List β) (S : Set α) : Prop :=
  ∀ a ∈ S, ∀ b ∈ S, ∀ s t, enc a ++ s = enc b ++ t → a = b ∧ s = t

namespace SelfDelimiting

variable {enc : α → List β} {S : Set α}

theorem injOn (h : SelfDelimiting enc S) : Set.InjOn enc S := by
  intro a ha b hb heq
  exact (h a ha b hb [] [] (by rw [heq])).1

/-- The first place of `x` in a text ends the word in front of it. -/
private theorem append_cons_inj {x : β} {u v : List β} (hu : x ∉ u) (hv : x ∉ v) {s t : List β}
    (h : u ++ x :: s = v ++ x :: t) : u = v ∧ s = t := by
  induction u generalizing v with
  | nil =>
    cases v with
    | nil => exact ⟨rfl, (List.cons.inj h).2⟩
    | cons y v =>
      obtain ⟨rfl, _⟩ := List.cons.inj h
      exact absurd List.mem_cons_self hv
  | cons y u ih =>
    cases v with
    | nil =>
      obtain ⟨rfl, _⟩ := List.cons.inj h
      exact absurd List.mem_cons_self hu
    | cons z v =>
      rw [List.mem_cons, not_or] at hu hv
      obtain ⟨rfl, htail⟩ := List.cons.inj h
      obtain ⟨rfl, hst⟩ := ih hu.2 hv.2 htail
      exact ⟨rfl, hst⟩

/-- Words that do not hold the terminator, with the terminator behind them. -/
theorem terminated {x : β} (hinj : Set.InjOn enc S) (hx : ∀ a ∈ S, x ∉ enc a) :
    SelfDelimiting (fun a => enc a ++ [x]) S := by
  intro a ha b hb s t h
  rw [List.append_assoc, List.append_assoc] at h
  obtain ⟨heq, hst⟩ := append_cons_inj (hx a ha) (hx b hb) h
  exact ⟨hinj ha hb heq, hst⟩

/-- Words with their length in front, which is written with `w` symbols. -/
theorem counted {count : ℕ → List β} {w : ℕ} (hinj : Set.InjOn enc S)
    (hwidth : ∀ n, (count n).length = w)
    (hcount : Set.InjOn count (Set.image (fun a => (enc a).length) S)) :
    SelfDelimiting (fun a => count (enc a).length ++ enc a) S := by
  intro a ha b hb s t h
  rw [List.append_assoc, List.append_assoc] at h
  obtain ⟨hlen, hrest⟩ := List.append_inj h (by rw [hwidth, hwidth])
  obtain ⟨heq, hst⟩ := List.append_inj hrest (hcount ⟨a, ha, rfl⟩ ⟨b, hb, rfl⟩ hlen)
  exact ⟨hinj ha hb heq, hst⟩

/-- The items of a list, for lists of one length. -/
theorem flatMap (h : SelfDelimiting enc S) (n : Nat) :
    SelfDelimiting (fun l : List α => l.flatMap enc) {l | l.length = n ∧ ∀ a ∈ l, a ∈ S} := by
  rintro l ⟨hlen, hl⟩ l' ⟨hlen', hl'⟩ s t heq
  induction n generalizing l l' with
  | zero =>
    obtain rfl := List.eq_nil_of_length_eq_zero hlen
    obtain rfl := List.eq_nil_of_length_eq_zero hlen'
    exact ⟨rfl, heq⟩
  | succ n ih =>
    obtain ⟨a, l, rfl⟩ := List.exists_cons_of_length_eq_add_one hlen
    obtain ⟨b, l', rfl⟩ := List.exists_cons_of_length_eq_add_one hlen'
    simp only [List.flatMap_cons, List.append_assoc] at heq
    obtain ⟨rfl, hrest⟩ := h a (hl a List.mem_cons_self) b (hl' b List.mem_cons_self) _ _ heq
    obtain ⟨rfl, hst⟩ := ih l (by simpa using hlen) (fun x hx => hl x (List.mem_cons_of_mem a hx))
      l' (by simpa using hlen') (fun x hx => hl' x (List.mem_cons_of_mem a hx)) hrest
    exact ⟨rfl, hst⟩

/-- The words themselves, as values. -/
theorem image (h : SelfDelimiting enc S) : SelfDelimiting id (Set.image enc S) := by
  rintro _ ⟨a, ha, rfl⟩ _ ⟨b, hb, rfl⟩ s t heq
  obtain ⟨rfl, hst⟩ := h a ha b hb s t heq
  exact ⟨rfl, hst⟩

/-- A concatenation of words has one reading. -/
theorem flatMap_inj (h : SelfDelimiting enc S) (hne : ∀ a ∈ S, enc a ≠ []) {l l' : List α}
    (hl : ∀ a ∈ l, a ∈ S) (hl' : ∀ a ∈ l', a ∈ S) (heq : l.flatMap enc = l'.flatMap enc) :
    l = l' := by
  induction l generalizing l' with
  | nil =>
    cases l' with
    | nil => rfl
    | cons b l' =>
      rw [List.flatMap_nil, List.flatMap_cons] at heq
      exact absurd (List.append_eq_nil_iff.mp heq.symm).1 (hne b (hl' b List.mem_cons_self))
  | cons a l ih =>
    cases l' with
    | nil =>
      rw [List.flatMap_nil, List.flatMap_cons] at heq
      exact absurd (List.append_eq_nil_iff.mp heq).1 (hne a (hl a List.mem_cons_self))
    | cons b l' =>
      rw [List.flatMap_cons, List.flatMap_cons] at heq
      obtain ⟨rfl, hrest⟩ := h a (hl a List.mem_cons_self) b (hl' b List.mem_cons_self) _ _ heq
      rw [ih (fun x hx => hl x (List.mem_cons_of_mem a hx))
        (fun x hx => hl' x (List.mem_cons_of_mem a hx)) hrest]

end SelfDelimiting

/-- Two lists whose images are permutations of each other, under a function that is
injective on their items. -/
theorem perm_of_map_perm {f : α → β} {S : Set α} (hinj : Set.InjOn f S) {l l' : List α}
    (hl : ∀ a ∈ l, a ∈ S) (hl' : ∀ a ∈ l', a ∈ S) (h : (l.map f).Perm (l'.map f)) : l.Perm l' := by
  lift l to List S using hl
  lift l' to List S using hl'
  have hsub : Function.Injective fun a : S => f a := fun a b hab => Subtype.ext (hinj a.2 b.2 hab)
  rw [List.map_map, List.map_map] at h
  exact ((List.map_perm_map_iff hsub).mp h).map Subtype.val

end Lib
