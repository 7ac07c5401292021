import Mathlib.Data.List.Chain
import Mathlib.Tactic.Common

/-!
# Rows with a separator in their text

The fields of a row are written one after the other, each with a separator behind it.  A
field that is absent is written as a mark that begins with a symbol of its own.  Fields may
hold the separator, so rows of one width can have one text.

* `text_cons_cases`: where two texts begin alike, their first fields are the same, or one
  field has taken a separator and more from the other text.
* `Unambiguous`: no field holds the separator, so any other reading has fewer fields; or no
  two neighbours are both present, so any other reading has more.
* `unambiguous_iff`: these are the rows that no other row of the width has the text of.
-/

namespace Lib.Joined

variable {α : Type*}

/-- A field, absent or not. -/
def cell (mark : List α) : Option (List α) → List α
  | none => mark
  | some v => v

def text (sep : α) (mark : List α) (row : List (Option (List α))) : List α :=
  row.flatMap fun v => cell mark v ++ [sep]

/-- No field holds the symbol. -/
def Free (x : α) (row : List (Option (List α))) : Prop := ∀ v, some v ∈ row → x ∉ v

/-- Of two neighbours, one is absent. -/
def Spread (row : List (Option (List α))) : Prop := row.IsChain fun u v => u = none ∨ v = none

/-- The row is the only one of its width that has its text. -/
def Unambiguous (sep : α) (row : List (Option (List α))) : Prop := Free sep row ∨ Spread row

section Lemmas

variable {sep nul : α} {rest : List α} {row row' : List (Option (List α))}

theorem Free.head {x : α} {v : List α} (h : Free x (some v :: row)) : x ∉ v :=
  h v List.mem_cons_self

theorem Free.tail {x : α} {u : Option (List α)} (h : Free x (u :: row)) : Free x row :=
  fun v hv => h v (List.mem_cons_of_mem u hv)

theorem free_cons_some {x : α} {v : List α} (hv : x ∉ v) (h : Free x row) :
    Free x (some v :: row) := by
  intro w hw
  rcases List.mem_cons.mp hw with heq | hmem
  · rw [Option.some.inj heq]
    exact hv
  · exact h w hmem

theorem text_cons (mark : List α) (u : Option (List α)) (row : List (Option (List α))) :
    text sep mark (u :: row) = cell mark u ++ sep :: text sep mark row := by
  rw [text, List.flatMap_cons, List.append_assoc, List.singleton_append, text]

theorem text_append (mark : List α) (row row' : List (Option (List α))) :
    text sep mark (row ++ row') = text sep mark row ++ text sep mark row' := List.flatMap_append

/-- With a separator between the fields, and one more at the end. -/
theorem intercalate_append_singleton {fields : List (List α)} (hne : fields ≠ []) :
    [sep].intercalate fields ++ [sep] = fields.flatMap fun v => v ++ [sep] := by
  induction fields with
  | nil => exact absurd rfl hne
  | cons v fields ih =>
    cases fields with
    | nil => simp
    | cons w fields =>
      rw [List.intercalate_cons_cons, List.append_assoc (v ++ [sep]), ih (List.cons_ne_nil w fields)]
      simp only [List.flatMap_cons]

/-- A text that begins with the mark is not one that begins with a field. -/
private theorem mark_ne_field (hne : nul ≠ sep) {v s t : List α} (hv : nul ∉ v) :
    nul :: s ≠ v ++ sep :: t := by
  intro h
  cases v with
  | nil => exact hne (List.cons.inj h).1
  | cons x v =>
    obtain ⟨rfl, -⟩ := List.cons.inj h
    exact hv List.mem_cons_self

/-- Where two texts begin alike: the first fields are the same, or one is longer and its rest
is in the other text. -/
theorem text_cons_cases (hne : nul ≠ sep) {u v : Option (List α)} (hrow : Free nul (u :: row))
    (hrow' : Free nul (v :: row'))
    (h : text sep (nul :: rest) (u :: row) = text sep (nul :: rest) (v :: row')) :
    u = v ∧ text sep (nul :: rest) row = text sep (nul :: rest) row' ∨
      (∃ a b, u = some a ∧ v = some (a ++ sep :: b) ∧
        text sep (nul :: rest) row = text sep (nul :: rest) (some b :: row')) ∨
      ∃ a b, v = some a ∧ u = some (a ++ sep :: b) ∧
        text sep (nul :: rest) (some b :: row) = text sep (nul :: rest) row' := by
  rw [text_cons, text_cons] at h
  cases u with
  | none =>
    cases v with
    | none => exact Or.inl ⟨rfl, (List.cons.inj (List.append_cancel_left h)).2⟩
    | some w => exact absurd h (mark_ne_field hne hrow'.head)
  | some w =>
    cases v with
    | none => exact absurd h.symm (mark_ne_field hne hrow.head)
    | some w' =>
      change w ++ sep :: _ = w' ++ sep :: _ at h
      obtain ⟨s, rfl, hs⟩ | ⟨s, rfl, hs⟩ := List.append_eq_append_iff.mp h
      · cases s with
        | nil => exact Or.inl ⟨by rw [List.append_nil], (List.cons.inj hs).2⟩
        | cons x s =>
          obtain ⟨rfl, htail⟩ := List.cons.inj hs
          exact Or.inr (Or.inl ⟨w, s, rfl, rfl, by rw [text_cons]; exact htail⟩)
      · cases s with
        | nil => exact Or.inl ⟨by rw [List.append_nil], (List.cons.inj hs).2.symm⟩
        | cons x s =>
          obtain ⟨rfl, htail⟩ := List.cons.inj hs
          exact Or.inr (Or.inr ⟨w', s, rfl, rfl, by rw [text_cons]; exact htail.symm⟩)

theorem text_ne_nil (mark : List α) (u : Option (List α)) (row : List (Option (List α))) :
    text sep mark (u :: row) ≠ [] := by
  rw [text_cons]
  exact List.append_ne_nil_of_right_ne_nil _ (List.cons_ne_nil _ _)

/-- Fields without separators are the most that the text can be cut into. -/
theorem eq_of_free (hne : nul ≠ sep) (hrow : Free nul row) (hrow' : Free nul row')
    (hfree : Free sep row) (h : text sep (nul :: rest) row = text sep (nul :: rest) row') :
    row'.length ≤ row.length ∧ (row.length ≤ row'.length → row = row') := by
  induction row generalizing row' with
  | nil =>
    cases row' with
    | nil => exact ⟨Nat.le_refl 0, fun _ => rfl⟩
    | cons v row' => exact absurd h.symm (text_ne_nil _ v row')
  | cons u row ih =>
    cases row' with
    | nil => exact absurd h (text_ne_nil _ u row)
    | cons v row' =>
      rw [List.length_cons, List.length_cons]
      obtain ⟨rfl, htail⟩ | ⟨a, b, rfl, rfl, htail⟩ | ⟨a, b, rfl, rfl, -⟩ :=
        text_cons_cases hne hrow hrow' h
      · obtain ⟨hle, heq⟩ := ih hrow.tail hrow'.tail hfree.tail htail
        refine ⟨Nat.succ_le_succ hle, fun hge => ?_⟩
        rw [heq (Nat.le_of_succ_le_succ hge)]
      · -- the other row has the rest of the field in its text once more
        have hb : nul ∉ b := fun hmem => hrow'.head (by simp [hmem])
        obtain ⟨hle, -⟩ := ih hrow.tail (free_cons_some hb hrow'.tail) hfree.tail htail
        rw [List.length_cons] at hle
        exact ⟨by omega, fun hge => absurd hge (by omega)⟩
      · exact absurd (by simp) hfree.head

/-- Fields that have an absent one between them are the least. -/
theorem eq_of_spread (hne : nul ≠ sep) (hrow : Free nul row) (hrow' : Free nul row')
    (hspread : Spread row) (h : text sep (nul :: rest) row = text sep (nul :: rest) row') :
    row.length ≤ row'.length ∧ (row'.length ≤ row.length → row = row') := by
  induction row' generalizing row with
  | nil =>
    cases row with
    | nil => exact ⟨Nat.le_refl 0, fun _ => rfl⟩
    | cons u row => exact absurd h (text_ne_nil _ u row)
  | cons v row' ih =>
    cases row with
    | nil => exact absurd h.symm (text_ne_nil _ v row')
    | cons u row =>
      rw [List.length_cons, List.length_cons]
      obtain ⟨rfl, htail⟩ | ⟨a, b, rfl, rfl, htail⟩ | ⟨a, b, rfl, rfl, htail⟩ :=
        text_cons_cases hne hrow hrow' h
      · obtain ⟨hle, heq⟩ := ih hrow.tail hrow'.tail hspread.tail htail
        refine ⟨Nat.succ_le_succ hle, fun hge => ?_⟩
        rw [heq (Nat.le_of_succ_le_succ hge)]
      · -- behind the field is an absent one, or nothing
        cases row with
        | nil => exact absurd htail.symm (text_ne_nil _ _ row')
        | cons w row =>
          obtain rfl := (List.isChain_cons_cons.mp hspread).1.resolve_left (Option.some_ne_none a)
          have hb : nul ∉ b := fun hmem => hrow'.head (by simp [hmem])
          rw [text_cons, text_cons] at htail
          exact absurd htail (mark_ne_field hne hb)
      · have hb : nul ∉ b := fun hmem => hrow.head (by simp [hmem])
        have hspread' : Spread (some b :: row) := by
          cases row with
          | nil => exact List.isChain_singleton _
          | cons w row =>
            rw [Spread, List.isChain_cons_cons] at hspread ⊢
            exact ⟨Or.inr (hspread.1.resolve_left (Option.some_ne_none _)), hspread.2⟩
        obtain ⟨hle, -⟩ := ih (free_cons_some hb hrow.tail) hrow'.tail hspread' htail
        rw [List.length_cons] at hle
        exact ⟨by omega, fun hge => absurd hge (by omega)⟩

/-- Only one row of the width has the text of an unambiguous row. -/
theorem Unambiguous.eq (hrow : Unambiguous sep row) (hne : nul ≠ sep) (hnul : Free nul row)
    (hnul' : Free nul row') (hlen : row'.length = row.length)
    (h : text sep (nul :: rest) row = text sep (nul :: rest) row') : row = row' := by
  rcases hrow with hfree | hspread
  · exact (eq_of_free hne hnul hnul' hfree h).2 (Nat.le_of_eq hlen.symm)
  · exact (eq_of_spread hne hnul hnul' hspread h).2 (Nat.le_of_eq hlen)

/-! ### Ambiguous rows -/

theorem free_append {x : α} : Free x (row ++ row') ↔ Free x row ∧ Free x row' := by
  simp only [Free, List.mem_append, or_imp, forall_and]

theorem free_cons {x : α} {v : List α} : Free x (some v :: row) ↔ x ∉ v ∧ Free x row :=
  ⟨fun h => ⟨h.head, h.tail⟩, fun h => free_cons_some h.1 h.2⟩

theorem exists_pair (h : ¬ Spread row) : ∃ A a b B, row = A ++ some a :: some b :: B := by
  induction row with
  | nil => exact absurd List.isChain_nil h
  | cons u row ih =>
    cases row with
    | nil => exact absurd (List.isChain_singleton u) h
    | cons v row =>
      rw [Spread, List.isChain_cons_cons] at h
      by_cases hrest : Spread (v :: row)
      · have hboth : ¬ (u = none ∨ v = none) := fun huv => h ⟨huv, hrest⟩
        rw [not_or] at hboth
        obtain ⟨a, rfl⟩ := Option.ne_none_iff_exists'.mp hboth.1
        obtain ⟨b, rfl⟩ := Option.ne_none_iff_exists'.mp hboth.2
        exact ⟨[], a, b, row, rfl⟩
      · obtain ⟨A, a, b, B, heq⟩ := ih hrest
        exact ⟨u :: A, a, b, B, by rw [heq, List.cons_append]⟩

theorem exists_sep (h : ¬ Free sep row) : ∃ A a b B, row = A ++ some (a ++ sep :: b) :: B := by
  have hmem : ∃ v, some v ∈ row ∧ sep ∈ v := by simpa [Free] using h
  obtain ⟨v, hv, hsep⟩ := hmem
  obtain ⟨a, b, rfl⟩ := List.append_of_mem hsep
  obtain ⟨A, B, rfl⟩ := List.append_of_mem hv
  exact ⟨A, a, b, B, rfl⟩

/-- A separator in a field and two neighbours that are present: cut the field there and join
the neighbours. -/
theorem exists_other (hfree : ¬ Free sep row) (hspread : ¬ Spread row) (hnul : Free nul row)
    (mark : List α) : ∃ other : List (Option (List α)), Free nul other ∧
      other.length = row.length ∧ text sep mark other = text sep mark row ∧ other ≠ row := by
  obtain ⟨A, x, y, B, hsep⟩ := exists_sep hfree
  obtain ⟨C, a, b, D, hpair⟩ := exists_pair hspread
  have hlonger : ∀ z w : List α, z ≠ z ++ sep :: w := by
    intro z w heq
    have hlen := congrArg List.length heq
    rw [List.length_append, List.length_cons] at hlen
    omega
  subst hsep
  -- where the pair stands: behind the field, with it, or in front of it
  obtain ⟨s, rfl, hs⟩ | ⟨s, rfl, hs⟩ := List.append_eq_append_iff.mp hpair
  · cases s with
    | nil =>
      have hB : B = some b :: D := (List.cons.inj hs).2
      subst hB
      simp only [free_append, free_cons, List.mem_append, List.mem_cons, not_or] at hnul
      refine ⟨A ++ some x :: some (y ++ sep :: b) :: D, ?_, by simp, ?_, fun heq => ?_⟩
      · simp only [free_append, free_cons, List.mem_append, List.mem_cons, not_or]
        tauto
      · simp [text_append, text_cons, cell]
      · exact hlonger x y (Option.some.inj (List.cons.inj (List.append_cancel_left heq)).1)
    | cons u s =>
      have hB : B = s ++ some a :: some b :: D := (List.cons.inj hs).2
      subst hB
      simp only [free_append, free_cons, List.mem_append, List.mem_cons, not_or] at hnul
      refine ⟨A ++ some x :: some y :: (s ++ some (a ++ sep :: b) :: D), ?_, by simp; omega, ?_,
        fun heq => ?_⟩
      · simp only [free_append, free_cons, List.mem_append, List.mem_cons, not_or]
        tauto
      · simp [text_append, text_cons, cell]
      · exact hlonger x y (Option.some.inj (List.cons.inj (List.append_cancel_left heq)).1)
  · cases s with
    | nil =>
      have hB : some b :: D = B := (List.cons.inj hs).2
      subst hB
      simp only [free_append, free_cons, List.mem_append, List.mem_cons, not_or] at hnul
      refine ⟨C ++ some x :: some (y ++ sep :: b) :: D, ?_, by simp, ?_, fun heq => ?_⟩
      · simp only [free_append, free_cons, List.mem_append, List.mem_cons, not_or]
        tauto
      · simp [text_append, text_cons, cell]
      · rw [List.append_nil] at heq
        exact hlonger x y (Option.some.inj (List.cons.inj (List.append_cancel_left heq)).1)
    | cons u s =>
      obtain ⟨rfl, htail⟩ := List.cons.inj hs
      cases s with
      | nil =>
        have hb : b = x ++ sep :: y := Option.some.inj (List.cons.inj htail).1
        have hD : D = B := (List.cons.inj htail).2
        subst hb hD
        simp only [free_append, free_cons, List.mem_append, List.mem_cons, not_or] at hnul
        refine ⟨C ++ some (a ++ sep :: x) :: some y :: D, ?_, by simp, ?_, fun heq => ?_⟩
        · simp only [free_append, free_cons, List.mem_append, List.mem_cons, not_or]
          tauto
        · simp [text_append, text_cons, cell]
        · rw [List.append_assoc] at heq
          have hfirst := Option.some.inj (List.cons.inj (List.append_cancel_left heq)).1
          exact hlonger a x hfirst.symm
      | cons w s =>
        have hw : some b = w := (List.cons.inj htail).1
        have hD : D = s ++ some (x ++ sep :: y) :: B := (List.cons.inj htail).2
        subst hw hD
        simp only [free_append, free_cons, List.mem_append, List.mem_cons, not_or] at hnul
        refine ⟨C ++ some (a ++ sep :: b) :: (s ++ some x :: some y :: B), ?_, by simp; omega, ?_,
          fun heq => ?_⟩
        · simp only [free_append, free_cons, List.mem_append, List.mem_cons, not_or]
          tauto
        · simp [text_append, text_cons, cell]
        · rw [List.append_assoc] at heq
          have hfirst := Option.some.inj (List.cons.inj (List.append_cancel_left heq)).1
          exact hlonger a b hfirst.symm

/-- The unambiguous rows are those that no other row of the width has the text of. -/
theorem unambiguous_iff (hne : nul ≠ sep) (rest : List α) (hnul : Free nul row) :
    Unambiguous sep row ↔ ∀ other : List (Option (List α)), Free nul other →
      other.length = row.length → text sep (nul :: rest) other = text sep (nul :: rest) row →
        other = row := by
  constructor
  · intro h other hother hlen htext
    exact (h.eq hne hnul hother hlen htext.symm).symm
  · intro h
    by_contra hnot
    rw [Unambiguous, not_or] at hnot
    obtain ⟨other, hother, hlen, htext, hdiffers⟩ :=
      exists_other hnot.1 hnot.2 hnul (nul :: rest)
    exact hdiffers (h other hother hlen htext)

end Lemmas

end Lib.Joined
