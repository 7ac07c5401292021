import Mathlib.Tactic.Common
import Mathlib.Data.List.Infix
import Mathlib.Data.List.Induction

/-!
# The part of a list up to its last marked element

A log whose records carry a commit mark keeps, after a crash, the records up
to the last marked one.  `uptoLast p l` is that part of `l`, and
`afterLast p l` is the rest, which holds no marked element.

There are three groups.

* The split.  `uptoLast_append_afterLast` and `not_mem_afterLast` say what
  the two parts are.
* Growth.  `uptoLast_append` follows an append, and `uptoLast_mono` says
  that a longer list has a longer marked part.
* Blocks.  When the marked elements end blocks, `EndsMarked.uptoLast_eq` says that whole
  blocks are kept.
-/

namespace Lib

variable {α : Type*} {p : α → Bool}

/-- The elements of a list up to and including the last one that `p` marks. -/
def uptoLast (p : α → Bool) : List α → List α
  | [] => []
  | a :: l => if l.any p then a :: uptoLast p l else if p a then [a] else []

/-- The elements behind the last one that `p` marks. -/
def afterLast (p : α → Bool) (l : List α) : List α :=
  l.drop (uptoLast p l).length

/-! ## The split -/

@[simp] theorem uptoLast_nil : uptoLast p [] = [] := rfl

theorem uptoLast_isPrefix (l : List α) : uptoLast p l <+: l := by
  induction l with
  | nil => exact List.prefix_rfl
  | cons a l ih =>
    rw [uptoLast]
    split
    · exact (List.prefix_cons_inj a).mpr ih
    · split
      · exact (List.prefix_cons_inj a).mpr List.nil_prefix
      · exact List.nil_prefix

theorem uptoLast_append_afterLast (l : List α) :
    uptoLast p l ++ afterLast p l = l := by
  obtain ⟨t, ht⟩ := uptoLast_isPrefix (p := p) l
  have hdrop : afterLast p l = t := by
    rw [afterLast]
    conv_lhs => arg 2; rw [← ht]
    rw [List.drop_left]
  rw [hdrop, ht]

/-- Cutting back to the last mark follows an append. -/
theorem uptoLast_append (l m : List α) :
    uptoLast p (l ++ m) = if m.any p then l ++ uptoLast p m else uptoLast p l := by
  induction l with
  | nil =>
    rw [List.nil_append, List.nil_append]
    split
    · rfl
    · rename_i hm
      cases m with
      | nil => rfl
      | cons a m =>
        rw [List.any_cons, Bool.or_eq_true, not_or] at hm
        simp [uptoLast, hm.1, hm.2]
  | cons a l ih =>
    rw [List.cons_append, uptoLast, ih, List.any_append]
    by_cases hm : m.any p = true
    · simp [hm]
    · simp [hm, uptoLast]

theorem uptoLast_eq_nil_iff {l : List α} :
    uptoLast p l = [] ↔ ∀ a ∈ l, p a = false := by
  induction l with
  | nil => simp
  | cons a l ih =>
    rw [uptoLast]
    split
    · rename_i h
      obtain ⟨x, hx, hpx⟩ := List.any_eq_true.mp h
      refine ⟨fun hnil => by simp at hnil, fun hall => ?_⟩
      rw [hall x (List.mem_cons_of_mem a hx)] at hpx
      simp at hpx
    · rename_i h
      have hl : ∀ x ∈ l, p x = false := by
        intro x hx
        by_contra hpx
        exact h (List.any_eq_true.mpr ⟨x, hx, by simpa using hpx⟩)
      split
      · rename_i ha
        simp [ha]
      · rename_i ha
        simpa using ⟨by simpa using ha, hl⟩

theorem uptoLast_eq_self_of_getLast {l : List α} {a : α} (h : p a = true) :
    uptoLast p (l ++ [a]) = l ++ [a] := by
  rw [uptoLast_append, if_pos (by simpa using h)]
  simp [uptoLast, h]

theorem uptoLast_append_of_unmarked {l m : List α} (h : ∀ a ∈ m, p a = false) :
    uptoLast p (l ++ m) = uptoLast p l := by
  rw [uptoLast_append, if_neg]
  rw [List.any_eq_true]
  rintro ⟨a, ha, hpa⟩
  rw [h a ha] at hpa
  simp at hpa

theorem uptoLast_append_of_ne_nil {l m : List α} (h : uptoLast p m ≠ []) :
    uptoLast p (l ++ m) = l ++ uptoLast p m := by
  rw [uptoLast_append, if_pos]
  by_contra hany
  refine h (uptoLast_eq_nil_iff.mpr fun a ha => ?_)
  by_contra hpa
  exact hany (List.any_eq_true.mpr ⟨a, ha, by simpa using hpa⟩)

/-- In a list of lists either nothing is marked, or one list is the last with a
mark. -/
theorem exists_last_marked (L : List (List α)) :
    (∀ l ∈ L, uptoLast p l = []) ∨
      ∃ pre l post, L = pre ++ l :: post ∧ uptoLast p l ≠ [] ∧ ∀ m ∈ post, uptoLast p m = [] := by
  induction L with
  | nil => exact Or.inl (by simp)
  | cons l L ih =>
    rcases ih with hnone | ⟨pre, m, post, rfl, hm, hpost⟩
    · by_cases hl : uptoLast p l = []
      · left
        intro m hm
        rcases List.mem_cons.mp hm with rfl | hm
        · exact hl
        · exact hnone m hm
      · exact Or.inr ⟨[], l, L, rfl, hl, hnone⟩
    · exact Or.inr ⟨l :: pre, m, post, rfl, hm, hpost⟩

theorem uptoLast_flatten_eq_nil {L : List (List α)} (h : ∀ l ∈ L, uptoLast p l = []) :
    uptoLast p L.flatten = [] := by
  rw [uptoLast_eq_nil_iff]
  intro a ha
  obtain ⟨l, hl, hal⟩ := List.mem_flatten.mp ha
  exact uptoLast_eq_nil_iff.mp (h l hl) a hal

/-- The last mark of the whole is the last mark of the last marked list. -/
theorem uptoLast_flatten_split {pre post : List (List α)} {l : List α} (hl : uptoLast p l ≠ [])
    (hpost : ∀ m ∈ post, uptoLast p m = []) :
    uptoLast p (pre ++ l :: post).flatten = pre.flatten ++ uptoLast p l := by
  have hnil : ∀ a ∈ post.flatten, p a = false :=
    uptoLast_eq_nil_iff.mp (uptoLast_flatten_eq_nil hpost)
  rw [List.flatten_append, List.flatten_cons, ← List.append_assoc,
    uptoLast_append_of_unmarked hnil, uptoLast_append_of_ne_nil hl]

/-- A list of lists, cut behind its last mark: the lists before the last marked one
stay whole, and those behind it go. -/
def cutLast (p : α → Bool) : List (List α) → List (List α)
  | [] => []
  | l :: ls =>
    match cutLast p ls with
    | [] => if (uptoLast p l).isEmpty then [] else [uptoLast p l]
    | m :: ms => l :: m :: ms

theorem cutLast_eq_nil {L : List (List α)} (h : ∀ l ∈ L, uptoLast p l = []) :
    cutLast p L = [] := by
  induction L with
  | nil => rfl
  | cons l L ih =>
    rw [cutLast, ih fun m hm => h m (List.mem_cons_of_mem l hm), h l (by simp)]
    rfl

theorem cutLast_split {pre post : List (List α)} {l : List α} (hl : uptoLast p l ≠ [])
    (hpost : ∀ m ∈ post, uptoLast p m = []) :
    cutLast p (pre ++ l :: post) = pre ++ [uptoLast p l] := by
  induction pre with
  | nil =>
    rw [List.nil_append, List.nil_append, cutLast, cutLast_eq_nil hpost]
    simp [hl]
  | cons m pre ih =>
    rw [List.cons_append, cutLast, ih]
    cases pre <;> rfl

theorem cutLast_cons_of_nil {l : List α} {L : List (List α)} (h : cutLast p L = []) :
    cutLast p (l :: L) = [] ∨ cutLast p (l :: L) = [uptoLast p l] := by
  rw [cutLast, h]
  dsimp only
  split
  · exact Or.inl rfl
  · exact Or.inr rfl

theorem cutLast_cons_of_ne_nil {l : List α} {L : List (List α)} (h : cutLast p L ≠ []) :
    cutLast p (l :: L) = l :: cutLast p L := by
  rw [cutLast]
  split
  · rename_i hnil
    exact absurd hnil h
  · rename_i hcons
    rw [hcons]

theorem flatten_cutLast (L : List (List α)) :
    (cutLast p L).flatten = uptoLast p L.flatten := by
  rcases exists_last_marked (p := p) L with hnone | ⟨pre, l, post, rfl, hl, hpost⟩
  · rw [cutLast_eq_nil hnone, uptoLast_flatten_eq_nil hnone, List.flatten_nil]
  · rw [cutLast_split hl hpost, uptoLast_flatten_split hl hpost]
    simp

/-- A non-empty marked part ends with a marked element. -/
theorem exists_of_uptoLast_ne_nil {l : List α} (h : uptoLast p l ≠ []) :
    ∃ front a, uptoLast p l = front ++ [a] ∧ p a = true := by
  induction l with
  | nil => exact absurd rfl h
  | cons a l ih =>
    rw [uptoLast] at h ⊢
    split at h
    · rename_i hany
      rw [if_pos hany]
      have hne : uptoLast p l ≠ [] := by
        intro hnil
        obtain ⟨x, hx, hpx⟩ := List.any_eq_true.mp hany
        rw [uptoLast_eq_nil_iff.mp hnil x hx] at hpx
        simp at hpx
      obtain ⟨front, b, hb, hpb⟩ := ih hne
      exact ⟨a :: front, b, by rw [hb]; rfl, hpb⟩
    · rename_i hany
      rw [if_neg hany]
      split at h
      · rename_i ha
        rw [if_pos ha]
        exact ⟨[], a, rfl, ha⟩
      · exact absurd rfl h

@[simp] theorem uptoLast_uptoLast (l : List α) :
    uptoLast p (uptoLast p l) = uptoLast p l := by
  by_cases h : uptoLast p l = []
  · rw [h, uptoLast_nil]
  · obtain ⟨front, a, hfa, hpa⟩ := exists_of_uptoLast_ne_nil h
    rw [hfa]
    exact uptoLast_eq_self_of_getLast hpa

/-- No element behind the last mark is marked. -/
theorem not_mem_afterLast {l : List α} {a : α} (ha : a ∈ afterLast p l) :
    p a = false := by
  by_contra hpa
  have hany : (afterLast p l).any p = true :=
    List.any_eq_true.mpr ⟨a, ha, by simpa using hpa⟩
  have hcut := congrArg List.length
    (uptoLast_append (p := p) (uptoLast p l) (afterLast p l))
  rw [uptoLast_append_afterLast, if_pos hany, List.length_append] at hcut
  have hpos : uptoLast p (afterLast p l) ≠ [] := by
    intro hnil
    exact hpa (uptoLast_eq_nil_iff.mp hnil a ha)
  exact hpos (List.eq_nil_of_length_eq_zero (by omega))

/-- A marked element keeps its place. -/
theorem getElem?_uptoLast {l : List α} {i : Nat} {a : α} (h : l[i]? = some a) (ha : p a = true) :
    (uptoLast p l)[i]? = some a := by
  have hsplit := uptoLast_append_afterLast (p := p) l
  rcases Nat.lt_or_ge i (uptoLast p l).length with hi | hi
  · rw [← hsplit, List.getElem?_append_left hi] at h
    exact h
  · rw [← hsplit, List.getElem?_append_right hi] at h
    have := not_mem_afterLast (List.mem_of_getElem? h)
    simp [ha] at this

theorem uptoLast_afterLast (l : List α) : uptoLast p (afterLast p l) = [] :=
  uptoLast_eq_nil_iff.mpr fun _ ha => not_mem_afterLast ha

/-! ## Growth -/

/-- A longer list has a longer marked part. -/
theorem uptoLast_mono {l m : List α} (h : l <+: m) :
    uptoLast p l <+: uptoLast p m := by
  obtain ⟨t, rfl⟩ := h
  rw [uptoLast_append]
  split
  · exact (uptoLast_isPrefix l).trans (List.prefix_append _ _)
  · exact List.prefix_rfl

/-! ## Blocks -/

/-- Every block ends with its only marked element. -/
def EndsMarked (p : α → Bool) (blocks : List (List α)) : Prop :=
  ∀ b ∈ blocks, ∃ body a, b = body ++ [a] ∧ p a = true ∧ ∀ x ∈ body, p x = false

theorem EndsMarked.countP {blocks : List (List α)} (h : EndsMarked p blocks) :
    blocks.flatten.countP p = blocks.length := by
  induction blocks with
  | nil => rfl
  | cons b blocks ih =>
    obtain ⟨body, a, rfl, ha, hbody⟩ := h b List.mem_cons_self
    have hzero : body.countP p = 0 := List.countP_eq_zero.mpr fun x hx => by simp [hbody x hx]
    rw [List.flatten_cons, List.countP_append, ih fun c hc => h c (List.mem_cons_of_mem _ hc),
      List.countP_append, hzero, List.length_cons]
    simp [ha, Nat.add_comm]

/-- In blocks, what is cut back to the last mark are the blocks that are complete. -/
theorem EndsMarked.uptoLast_eq {blocks : List (List α)} (h : EndsMarked p blocks) {l : List α}
    (hl : l <+: blocks.flatten) : uptoLast p l = (blocks.take (l.countP p)).flatten := by
  induction blocks generalizing l with
  | nil =>
    obtain rfl : l = [] := by simpa using hl
    rfl
  | cons b blocks ih =>
    obtain ⟨body, a, rfl, ha, hbody⟩ := h b List.mem_cons_self
    have hzero : body.countP p = 0 := List.countP_eq_zero.mpr fun x hx => by simp [hbody x hx]
    rw [List.flatten_cons] at hl
    rcases List.prefix_or_prefix_of_prefix hl (List.prefix_append _ _) with hin | ⟨t, rfl⟩
    · rcases List.prefix_concat_iff.mp hin with rfl | hbefore
      · rw [uptoLast_eq_self_of_getLast ha, List.countP_append, hzero]
        simp [ha]
      · -- the block is not complete
        have hnone : ∀ x ∈ l, p x = false := fun x hx => hbody x (hbefore.subset hx)
        rw [uptoLast_eq_nil_iff.mpr hnone, List.countP_eq_zero.mpr fun x hx => by simp [hnone x hx]]
        rfl
    · have hrest := ih (fun c hc => h c (List.mem_cons_of_mem _ hc))
        ((List.prefix_append_right_inj _).mp hl)
      have hcount : (body ++ [a] ++ t).countP p = t.countP p + 1 := by
        rw [List.countP_append, List.countP_append, hzero]
        simp [ha, Nat.add_comm]
      rw [hcount, List.take_succ_cons, List.flatten_cons, ← hrest]
      by_cases ht : uptoLast p t = []
      · rw [ht, uptoLast_append_of_unmarked (uptoLast_eq_nil_iff.mp ht),
          uptoLast_eq_self_of_getLast ha, List.append_nil]
      · exact uptoLast_append_of_ne_nil ht

end Lib
