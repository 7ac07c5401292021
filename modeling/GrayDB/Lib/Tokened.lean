import Mathlib.Data.List.Basic
import Mathlib.Data.List.Induction

/-!
# Inserts that carry a token

A store that drops an insert whose token it has already received.  A writer that repeats an
insert until it succeeds relies on it: `insert_insert` says that the repetition does
nothing.  The price is that two different inserts with one token are taken for one.

`received` is the store after a list of inserts.  If no token is used twice, it holds the
rows of all of them (`rows_received`).  If one insert got through and the writer starts
again with other inserts, the rows are those of the others exactly when its token is among
theirs (`rows_received_again`).
-/

namespace Lib

variable {τ α : Type}

/-- A list of rows, and the tokens of the inserts received. -/
structure Tokened (τ α : Type) where
  rows : List α := []
  tokens : List τ := []
  deriving DecidableEq, Repr

namespace Tokened

variable [DecidableEq τ]

/-- An insert into a store that looks at the tokens, or that does not. -/
def insert (looks : Bool) (token : τ) (new : List α) (s : Tokened τ α) : Tokened τ α :=
  if looks = true ∧ token ∈ s.tokens then s
  else { rows := s.rows ++ new, tokens := s.tokens ++ [token] }

theorem insert_of_mem {token : τ} {s : Tokened τ α} (h : token ∈ s.tokens) (new : List α) :
    s.insert true token new = s :=
  if_pos ⟨rfl, h⟩

theorem insert_of_notMem {token : τ} {s : Tokened τ α} (h : token ∉ s.tokens) (looks : Bool)
    (new : List α) :
    s.insert looks token new = { rows := s.rows ++ new, tokens := s.tokens ++ [token] } :=
  if_neg fun hmem => h hmem.2

/-- A store that does not look at the tokens takes every insert. -/
theorem rows_insert_false (token : τ) (new : List α) (s : Tokened τ α) :
    (s.insert false token new).rows = s.rows ++ new := by
  unfold insert
  rw [if_neg]
  exact fun h => nomatch h.1

theorem mem_tokens_insert (token : τ) (new : List α) (s : Tokened τ α) (t : τ) :
    t ∈ (s.insert true token new).tokens ↔ t ∈ s.tokens ∨ t = token := by
  by_cases h : token ∈ s.tokens
  · rw [insert_of_mem h]
    constructor
    · exact Or.inl
    · intro ht
      cases ht with
      | inl ht => exact ht
      | inr ht => exact ht ▸ h
  · rw [insert_of_notMem h]
    simp

/-- Repeating an insert does nothing. -/
theorem insert_insert (token : τ) (new : List α) (s : Tokened τ α) :
    (s.insert true token new).insert true token new = s.insert true token new := by
  apply insert_of_mem
  rw [mem_tokens_insert]
  exact .inr rfl

/-- The store after the inserts. -/
def received (inserts : List (τ × List α)) : Tokened τ α :=
  inserts.foldl (fun s i => s.insert true i.1 i.2) {}

theorem received_append_singleton (inserts : List (τ × List α)) (i : τ × List α) :
    received (inserts ++ [i]) = (received inserts).insert true i.1 i.2 := by
  unfold received
  rw [List.foldl_append]
  rfl

theorem mem_tokens_received (inserts : List (τ × List α)) (t : τ) :
    t ∈ (received inserts).tokens ↔ t ∈ inserts.map Prod.fst := by
  induction inserts using List.reverseRecOn with
  | nil => simp [received]
  | append_singleton inserts i ih =>
    rw [received_append_singleton, mem_tokens_insert, ih]
    simp

/-- Every row comes from an insert. -/
theorem mem_rows_received {inserts : List (τ × List α)} {a : α}
    (h : a ∈ (received inserts).rows) : ∃ i ∈ inserts, a ∈ i.2 := by
  induction inserts using List.reverseRecOn with
  | nil => exact absurd h List.not_mem_nil
  | append_singleton inserts i ih =>
    rw [received_append_singleton] at h
    by_cases hmem : i.1 ∈ (received inserts).tokens
    · rw [insert_of_mem hmem] at h
      obtain ⟨j, hj, ha⟩ := ih h
      exact ⟨j, List.mem_append_left _ hj, ha⟩
    · rw [insert_of_notMem hmem] at h
      cases List.mem_append.mp h with
      | inl h =>
        obtain ⟨j, hj, ha⟩ := ih h
        exact ⟨j, List.mem_append_left _ hj, ha⟩
      | inr h => exact ⟨i, by simp, h⟩

/-- If no token is used twice, all inserts are stored. -/
theorem rows_received {inserts : List (τ × List α)} (h : (inserts.map Prod.fst).Nodup) :
    (received inserts).rows = inserts.flatMap Prod.snd := by
  induction inserts using List.reverseRecOn with
  | nil => rfl
  | append_singleton inserts i ih =>
    rw [List.map_append, List.nodup_append] at h
    have hnew : i.1 ∉ (received inserts).tokens := by
      rw [mem_tokens_received]
      intro hmem
      exact h.2.2 _ hmem _ (by simp) rfl
    rw [received_append_singleton, insert_of_notMem hnew, ih h.1, List.flatMap_append]
    simp

/-- An insert whose token is known does nothing. -/
theorem received_skip {before : List (τ × List α)} {x : τ × List α}
    (h : x.1 ∈ before.map Prod.fst) (behind : List (τ × List α)) :
    received (before ++ x :: behind) = received (before ++ behind) := by
  unfold received
  rw [List.foldl_append, List.foldl_append, List.foldl_cons]
  have hmem : x.1 ∈ (received before).tokens := (mem_tokens_received before x.1).mpr h
  rw [show before.foldl _ {} = received before from rfl, insert_of_mem hmem]

/-- One insert got through and is not repeated as it was: its rows are stored once exactly
when one of the later inserts has its token. -/
theorem rows_received_again {done again : List (τ × List α)} {x : τ × List α}
    (hnodup : ((done ++ again).map Prod.fst).Nodup) (hnew : x.1 ∉ done.map Prod.fst)
    (hsame : ∀ y ∈ again, y.1 = x.1 → y.2 = x.2) (hx : x.2 ≠ []) :
    (received (done ++ x :: again)).rows.Perm ((done ++ again).flatMap Prod.snd) ↔
      x.1 ∈ again.map Prod.fst := by
  constructor
  · intro hperm
    by_contra hnot
    have hall : ((done ++ x :: again).map Prod.fst).Nodup := by
      refine (List.perm_middle.map Prod.fst).nodup_iff.mpr (List.nodup_cons.mpr ⟨?_, hnodup⟩)
      rw [List.map_append, List.mem_append]
      exact fun h => h.elim hnew hnot
    rw [rows_received hall] at hperm
    have hlength := hperm.length_eq
    simp only [List.flatMap_append, List.flatMap_cons, List.length_append] at hlength
    exact hx (List.eq_nil_of_length_eq_zero (by omega))
  · intro hmem
    obtain ⟨y, hy, htoken⟩ := List.mem_map.mp hmem
    obtain rfl : y = x := Prod.ext htoken (hsame y hy htoken)
    obtain ⟨first, rest, rfl⟩ := List.append_of_mem hy
    have hknown : y.1 ∈ (done ++ y :: first).map Prod.fst := by
      simp
    have hskip : received (done ++ y :: (first ++ y :: rest))
        = received (done ++ y :: (first ++ rest)) := by
      have h := received_skip hknown rest
      simpa only [List.append_assoc, List.cons_append] using h
    -- the inserts that are stored are those of the second try, in another order
    have horder : (done ++ y :: (first ++ rest)).Perm (done ++ (first ++ y :: rest)) :=
      List.Perm.append_left done List.perm_middle.symm
    rw [hskip, rows_received ((horder.map Prod.fst).nodup_iff.mpr hnodup)]
    exact horder.flatMap_right _

/-! ## A store that holds other rows in front -/

/-- The rows and the tokens of `s'` are behind those of `base`. -/
structure Over (base s' s : Tokened τ α) : Prop where
  rows : s.rows = base.rows ++ s'.rows
  tokens : s.tokens = base.tokens ++ s'.tokens

omit [DecidableEq τ] in
theorem Over.refl (base : Tokened τ α) : base.Over {} base :=
  ⟨(List.append_nil _).symm, (List.append_nil _).symm⟩

/-- An insert whose token is not in front. -/
theorem Over.insert {base s' s : Tokened τ α} (h : base.Over s' s) {token : τ}
    (hnew : token ∉ base.tokens) (new : List α) :
    base.Over (s'.insert true token new) (s.insert true token new) := by
  have hmem : token ∈ s.tokens ↔ token ∈ s'.tokens := by
    rw [h.tokens, List.mem_append]
    exact or_iff_right hnew
  by_cases hknown : token ∈ s'.tokens
  · rw [insert_of_mem hknown, insert_of_mem (hmem.mpr hknown)]
    exact h
  · rw [insert_of_notMem hknown, insert_of_notMem fun hin => hknown (hmem.mp hin)]
    exact ⟨by rw [h.rows, List.append_assoc], by rw [h.tokens, List.append_assoc]⟩

end Tokened

end Lib
