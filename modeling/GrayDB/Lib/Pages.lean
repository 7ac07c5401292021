import Mathlib.Data.List.Basic
import Mathlib.Data.List.Forall2
import Mathlib.Data.List.Nodup
import Mathlib.Logic.Function.Basic

/-!
# Lists that are kept in pages

A list that grows at its end.  Its last elements are on an open page and the others on
closed ones.  An element can change, but it stays at its address until its page is closed,
so that an index can lead from a key to the address of a live element.

`Sound` says that what an index leads to is live and has the key, and `Covers` that every
live element has its key in the index.  Both are kept when an element is pushed or killed
and when the open page is closed.
-/

namespace Lib

/-- The closed pages and the open one. -/
structure Pages (α : Type*) where
  closed : List (List α)
  opened : List α

/-- A page, `none` for the open one, and a place on it. -/
abbrev Addr := Option Nat × Nat

namespace Pages

variable {α κ : Type*}

def flat (p : Pages α) : List α := p.closed.flatten ++ p.opened

def page? (p : Pages α) : Option Nat → Option (List α)
  | none => some p.opened
  | some i => p.closed[i]?

def get? (p : Pages α) (a : Addr) : Option α := (p.page? a.1).bind fun page => page[a.2]?

def modify (p : Pages α) (a : Addr) (f : α → α) : Pages α :=
  match a.1 with
  | none => { p with opened := p.opened.modify a.2 f }
  | some i => { p with closed := p.closed.modify i fun page => page.modify a.2 f }

/-- Change the elements at these addresses. -/
def modifyAll (p : Pages α) (as : List Addr) (f : α → α) : Pages α :=
  as.foldl (fun p a => p.modify a f) p

def push (p : Pages α) (x : α) : Pages α := { p with opened := p.opened ++ [x] }

def close (p : Pages α) : Pages α := { closed := p.closed ++ [p.opened], opened := [] }

/-! ## Elements and addresses -/

variable {p : Pages α} {a b : Addr} {x y : α} {f : α → α}

@[simp] theorem flat_push (p : Pages α) (x : α) : (p.push x).flat = p.flat ++ [x] := by
  simp [flat, push]

@[simp] theorem flat_close (p : Pages α) : p.close.flat = p.flat := by
  simp [flat, close]

theorem get?_open (p : Pages α) (j : Nat) : p.get? (none, j) = p.opened[j]? := rfl

theorem get?_closed (p : Pages α) (i j : Nat) :
    p.get? (some i, j) = p.closed[i]?.bind fun page => page[j]? := rfl

theorem get?_push (p : Pages α) (x : α) (b : Addr) :
    (p.push x).get? b = if b = (none, p.opened.length) then some x else p.get? b := by
  obtain ⟨page, j⟩ := b
  cases page with
  | some i => rfl
  | none =>
    rw [get?_open, push, get?_open, List.getElem?_append]
    by_cases hlt : j < p.opened.length
    · rw [if_pos hlt, if_neg (by simp; omega)]
    · rw [if_neg hlt]
      by_cases hj : j = p.opened.length
      · simp [hj]
      · rw [if_neg (by simp [hj]), List.getElem?_eq_none (by simp; omega),
          List.getElem?_eq_none (by omega)]

theorem get?_push_of_get? (h : p.get? a = some x) (y : α) : (p.push y).get? a = some x := by
  rw [get?_push, if_neg, h]
  rintro rfl
  rw [get?_open, List.getElem?_eq_none (Nat.le_refl _)] at h
  exact nomatch h

theorem get?_close (p : Pages α) (i j : Nat) : p.close.get? (some i, j)
    = if i = p.closed.length then p.opened[j]? else p.get? (some i, j) := by
  rw [get?_closed, get?_closed, close, List.getElem?_append]
  by_cases hlt : i < p.closed.length
  · rw [if_pos hlt, if_neg (by omega)]
  · rw [if_neg hlt]
    by_cases hi : i = p.closed.length
    · simp [hi]
    · rw [if_neg hi, List.getElem?_eq_none (by simp; omega), List.getElem?_eq_none (by omega)]

theorem get?_modify (p : Pages α) (a b : Addr) (f : α → α) :
    (p.modify a f).get? b = if a = b then (p.get? b).map f else p.get? b := by
  obtain ⟨page, i⟩ := a
  obtain ⟨page', j⟩ := b
  cases page with
  | none =>
    cases page' with
    | none =>
      rw [modify, get?_open, get?_open, List.getElem?_modify]
      by_cases hij : i = j
      · simp [hij]
      · simp [hij]
    | some m => rfl
  | some n =>
    cases page' with
    | none => rfl
    | some m =>
      rw [modify, get?_closed, get?_closed, List.getElem?_modify]
      by_cases hnm : n = m
      · subst hnm
        cases p.closed[n]? with
        | none => simp
        | some page =>
          by_cases hij : i = j
          · simp [hij]
          · simp [hij]
      · simp [hnm]

theorem get?_modify_ne (hne : a ≠ b) : (p.modify a f).get? b = p.get? b := by
  rw [get?_modify, if_neg hne]

theorem length_opened_modify (p : Pages α) (a : Addr) (f : α → α) :
    (p.modify a f).opened.length = p.opened.length := by
  obtain ⟨page, i⟩ := a
  cases page <;> simp [modify]

private theorem modify_split {l : List α} {i : Nat} (h : l[i]? = some x) :
    ∃ pre post, l = pre ++ x :: post ∧ ∀ f : α → α, l.modify i f = pre ++ f x :: post := by
  obtain ⟨hi, hx⟩ := List.getElem?_eq_some_iff.mp h
  refine ⟨l.take i, l.drop (i + 1), ?_, ?_⟩
  · rw [← hx, ← List.drop_eq_getElem_cons hi, List.take_append_drop]
  · intro f
    rw [List.modify_eq_take_cons_drop hi, hx]

/-- An element stands at one place of the list, which is where it changes. -/
theorem flat_split (h : p.get? a = some x) :
    ∃ pre post, p.flat = pre ++ x :: post ∧ ∀ f, (p.modify a f).flat = pre ++ f x :: post := by
  obtain ⟨page, i⟩ := a
  cases page with
  | none =>
    obtain ⟨pre, post, hsplit, hmodify⟩ := modify_split h
    refine ⟨p.closed.flatten ++ pre, post, ?_, fun f => ?_⟩
    · rw [flat, hsplit, List.append_assoc]
    · simp only [flat, modify, hmodify, List.append_assoc]
  | some n =>
    obtain ⟨page, hpage, hx⟩ := Option.bind_eq_some_iff.mp h
    obtain ⟨pages, pages', hpages, hclosed⟩ := modify_split hpage
    obtain ⟨pre, post, hsplit, hmodify⟩ := modify_split hx
    refine ⟨pages.flatten ++ pre, post ++ (pages'.flatten ++ p.opened), ?_, fun f => ?_⟩
    · rw [flat, hpages, hsplit]
      simp
    · simp [flat, modify, hclosed, hmodify]

theorem mem_flat_of_get? (h : p.get? a = some x) : x ∈ p.flat := by
  obtain ⟨pre, post, hsplit, -⟩ := flat_split h
  simp [hsplit]

theorem forall_mem_modify {P : α → Prop} (hx : p.get? a = some x) (h : ∀ y ∈ p.flat, P y)
    (hf : P x → P (f x)) : ∀ y ∈ (p.modify a f).flat, P y := by
  obtain ⟨pre, post, hsplit, hmodify⟩ := flat_split hx
  rw [hsplit, List.forall_mem_append, List.forall_mem_cons] at h
  rw [hmodify, List.forall_mem_append, List.forall_mem_cons]
  exact ⟨h.1, hf h.2.1, h.2.2⟩

theorem exists_get?_of_mem_flat (h : x ∈ p.flat) : ∃ a, p.get? a = some x := by
  rcases List.mem_append.mp h with h | h
  · obtain ⟨page, hpage, hx⟩ := List.mem_flatten.mp h
    obtain ⟨i, hi⟩ := List.mem_iff_getElem?.mp hpage
    obtain ⟨j, hj⟩ := List.mem_iff_getElem?.mp hx
    refine ⟨(some i, j), ?_⟩
    rw [get?_closed, hi]
    exact hj
  · obtain ⟨j, hj⟩ := List.mem_iff_getElem?.mp h
    exact ⟨(none, j), hj⟩

theorem get?_modifyAll_of_notMem {as : List Addr} (h : a ∉ as) (f : α → α) :
    (p.modifyAll as f).get? a = p.get? a := by
  induction as generalizing p with
  | nil => rfl
  | cons b as ih =>
    rw [List.mem_cons, not_or] at h
    rw [modifyAll, List.foldl_cons]
    exact (ih h.2).trans (get?_modify_ne (Ne.symm h.1))

theorem get?_modifyAll_of_mem {as : List Addr} (hnodup : as.Nodup) (h : a ∈ as) (f : α → α) :
    (p.modifyAll as f).get? a = (p.get? a).map f := by
  induction as generalizing p with
  | nil => exact nomatch h
  | cons b as ih =>
    obtain ⟨hb, hnodup⟩ := List.nodup_cons.mp hnodup
    rw [modifyAll, List.foldl_cons]
    rcases List.mem_cons.mp h with rfl | h
    · exact (get?_modifyAll_of_notMem hb f).trans (by rw [get?_modify, if_pos rfl])
    · have hne : b ≠ a := fun heq => hb (heq ▸ h)
      exact (ih hnodup h).trans (by rw [get?_modify_ne hne])

/-! ## Elements that change -/

/-- The elements of `p'` are those of `p`, each of them changed as `R` says. -/
structure Rel (R : α → α → Prop) (p p' : Pages α) : Prop where
  closed : List.Forall₂ (List.Forall₂ R) p.closed p'.closed
  opened : List.Forall₂ R p.opened p'.opened

section Rel

variable {R : α → α → Prop} {p' : Pages α}

theorem Rel.flat (h : Rel R p p') : List.Forall₂ R p.flat p'.flat :=
  List.rel_append (List.rel_flatten h.closed) h.opened

private theorem forall₂_modify {β : Type*} {S : β → β → Prop} (hrefl : ∀ x, S x x) {l : List β}
    {i : Nat} {g : β → β} (h : ∀ x, l[i]? = some x → S x (g x)) :
    List.Forall₂ S l (l.modify i g) := by
  induction l generalizing i with
  | nil =>
    rw [List.modify_nil]
    exact List.Forall₂.nil
  | cons y l ih =>
    cases i with
    | zero =>
      rw [List.modify_zero_cons]
      exact List.Forall₂.cons (h y rfl) (List.forall₂_same.mpr fun x _ => hrefl x)
    | succ i =>
      rw [List.modify_succ_cons]
      exact List.Forall₂.cons (hrefl y) (ih h)

theorem Rel.modify (hrefl : ∀ x, R x x) (h : ∀ x, p.get? a = some x → R x (f x)) :
    Rel R p (p.modify a f) := by
  have hsame : ∀ page : List α, List.Forall₂ R page page := fun page =>
    List.forall₂_same.mpr fun x _ => hrefl x
  obtain ⟨page, j⟩ := a
  cases page with
  | none => exact ⟨List.forall₂_same.mpr fun page _ => hsame page, forall₂_modify hrefl h⟩
  | some i =>
    refine ⟨forall₂_modify hsame fun page hpage => forall₂_modify hrefl fun x hx => h x ?_, hsame _⟩
    rw [get?_closed, hpage]
    exact hx

theorem forall₂_trans {β : Type*} {S : β → β → Prop} (htrans : ∀ x y z, S x y → S y z → S x z)
    {l l' l'' : List β} (h : List.Forall₂ S l l') (h' : List.Forall₂ S l' l'') :
    List.Forall₂ S l l'' := by
  induction h generalizing l'' with
  | nil => exact h'
  | cons hx _ ih =>
    cases h' with
    | cons hy h' => exact List.Forall₂.cons (htrans _ _ _ hx hy) (ih h')

theorem Rel.trans (htrans : ∀ x y z, R x y → R y z → R x z) {p'' : Pages α} (h : Rel R p p')
    (h' : Rel R p' p'') : Rel R p p'' :=
  ⟨forall₂_trans (S := List.Forall₂ R) (fun _ _ _ => forall₂_trans htrans) h.closed h'.closed,
    forall₂_trans htrans h.opened h'.opened⟩

end Rel

/-! ## Live elements -/

variable {live : α → Bool} {key : α → Option κ}

/-- Killing a live element takes one from their number. -/
theorem countP_modify (h : p.get? a = some x) (hlive : live x = true) (hdead : live (f x) = false) :
    (p.modify a f).flat.countP live + 1 = p.flat.countP live := by
  obtain ⟨pre, post, hsplit, hmodify⟩ := flat_split h
  simp only [hsplit, hmodify, List.countP_append, List.countP_cons, hlive, hdead]
  simp
  omega

/-- The live elements have keys of their own. -/
def Distinct (live : α → Bool) (key : α → Option κ) (p : Pages α) : Prop :=
  ((p.flat.filter live).map key).Nodup

/-- The index leads to live elements with the key. -/
def Sound (live : α → Bool) (key : α → Option κ) (p : Pages α) (ix : κ → Option Addr) : Prop :=
  ∀ k a, ix k = some a → ∃ x, p.get? a = some x ∧ live x = true ∧ key x = some k

/-- The keys of the live elements are in the index. -/
def Covers (live : α → Bool) (key : α → Option κ) (p : Pages α) (ix : κ → Option Addr) : Prop :=
  ∀ x ∈ p.flat, live x = true → ∃ k, key x = some k ∧ (ix k).isSome

variable {ix ix' : κ → Option Addr} {k k' : κ}

/-- No two keys lead to the same address. -/
theorem Sound.eq_of_eq (h : Sound live key p ix) (hk : ix k = some a) (hk' : ix k' = some a) :
    k = k' := by
  obtain ⟨x, hx, -, hkey⟩ := h k a hk
  obtain ⟨x', hx', -, hkey'⟩ := h k' a hk'
  rw [hx] at hx'
  obtain rfl := Option.some.inj hx'
  rw [hkey] at hkey'
  exact Option.some.inj hkey'

theorem Sound.push (h : Sound live key p ix) (x : α) : Sound live key (p.push x) ix := by
  intro k a hk
  obtain ⟨y, hy, hlive, hkey⟩ := h k a hk
  exact ⟨y, get?_push_of_get? hy x, hlive, hkey⟩

variable [DecidableEq κ]

theorem Sound.push_update (h : Sound live key p ix) (hlive : live x = true)
    (hkey : key x = some k) :
    Sound live key (p.push x) (Function.update ix k (some (none, p.opened.length))) := by
  intro k' b hk'
  by_cases heq : k' = k
  · subst heq
    rw [Function.update_self] at hk'
    obtain rfl := Option.some.inj hk'
    exact ⟨x, by rw [get?_push, if_pos rfl], hlive, hkey⟩
  · rw [Function.update_of_ne heq] at hk'
    exact h.push x k' b hk'

theorem Sound.modify_update (h : Sound live key p ix) (hk : ix k = some a) (f : α → α) :
    Sound live key (p.modify a f) (Function.update ix k none) := by
  intro k' b hk'
  by_cases heq : k' = k
  · subst heq
    rw [Function.update_self] at hk'
    exact nomatch hk'
  · rw [Function.update_of_ne heq] at hk'
    obtain ⟨y, hy, hlive, hkey⟩ := h k' b hk'
    have hne : a ≠ b := fun hab => heq (h.eq_of_eq (hab ▸ hk') hk)
    exact ⟨y, by rw [get?_modify_ne hne, hy], hlive, hkey⟩

omit [DecidableEq κ] in
/-- The entries of the open page move to the new page; one that is left out is not lost if
its key is gone from the open page. -/
theorem Sound.close (h : Sound live key p ix)
    (hix' : ∀ k b, ix' k = some b →
      (∃ j x, p.opened[j]? = some x ∧ live x = true ∧ key x = some k ∧
        b = (some p.closed.length, j)) ∨
      ix k = some b ∧ ∀ x ∈ p.opened, live x = true → key x ≠ some k) :
    Sound live key p.close ix' := by
  intro k b hk
  rcases hix' k b hk with ⟨j, x, hx, hlive, hkey, rfl⟩ | ⟨hold, hnone⟩
  · exact ⟨x, by rw [get?_close, if_pos rfl, hx], hlive, hkey⟩
  · obtain ⟨x, hx, hlive, hkey⟩ := h k b hold
    obtain ⟨page, j⟩ := b
    cases page with
    | none => exact absurd hkey (hnone x (List.mem_of_getElem? hx) hlive)
    | some i =>
      obtain ⟨hi, -⟩ := List.getElem?_eq_some_iff.mp (Option.bind_eq_some_iff.mp hx).choose_spec.1
      exact ⟨x, by rw [get?_close, if_neg (by omega), hx], hlive, hkey⟩

theorem Covers.push_update (h : Covers live key p ix) (hkey : key x = some k) (b : Addr) :
    Covers live key (p.push x) (Function.update ix k (some b)) := by
  intro y hy hlive
  rw [flat_push, List.mem_append, List.mem_singleton] at hy
  rcases hy with hy | rfl
  · obtain ⟨k', hkey', hsome⟩ := h y hy hlive
    refine ⟨k', hkey', ?_⟩
    by_cases heq : k' = k
    · rw [heq, Function.update_self]
      rfl
    · rw [Function.update_of_ne heq]
      exact hsome
  · exact ⟨k, hkey, by rw [Function.update_self]; rfl⟩

omit [DecidableEq κ] in
theorem Covers.close (h : Covers live key p ix)
    (hix' : ∀ k, (ix k).isSome = true → (ix' k).isSome = true) : Covers live key p.close ix' := by
  intro x hx hlive
  rw [flat_close] at hx
  obtain ⟨k, hkey, hsome⟩ := h x hx hlive
  exact ⟨k, hkey, hix' k hsome⟩

/-! ## Killing by key -/

omit [DecidableEq κ] in
private theorem ne_key_of_distinct {pre post : List α}
    (h : (((pre ++ x :: post).filter live).map key).Nodup) (hlive : live x = true) :
    ∀ y ∈ pre ++ post, live y = true → key y ≠ key x := by
  intro y hy hy'
  rw [List.filter_append, List.filter_cons_of_pos hlive, List.map_append, List.map_cons,
    List.nodup_append, List.nodup_cons] at h
  obtain ⟨-, ⟨hpost, -⟩, hpre⟩ := h
  rcases List.mem_append.mp hy with hy | hy
  · exact hpre (key y) (List.mem_map_of_mem (List.mem_filter.mpr ⟨hy, hy'⟩)) (key x)
      List.mem_cons_self
  · intro heq
    exact hpost (heq ▸ List.mem_map_of_mem (List.mem_filter.mpr ⟨hy, hy'⟩))

private theorem map_eq_of_not {l : List α} {q : α → Prop} [DecidablePred q] {f : α → α}
    (h : ∀ y ∈ l, ¬ q y) : (l.map fun y => if q y then f y else y) = l := by
  calc l.map (fun y => if q y then f y else y)
      = l.map id := List.map_congr_left fun y hy => if_neg (h y hy)
    _ = l := List.map_id l

/-- With distinct keys, killing at an address is killing by key. -/
theorem flat_modify_eq_map (hdistinct : Distinct live key p) (h : p.get? a = some x)
    (hlive : live x = true) (hkey : key x = some k) (f : α → α) :
    (p.modify a f).flat
      = p.flat.map fun y => if live y = true ∧ key y = some k then f y else y := by
  obtain ⟨pre, post, hsplit, hmodify⟩ := flat_split h
  unfold Distinct at hdistinct
  rw [hsplit] at hdistinct
  have hothers := ne_key_of_distinct hdistinct hlive
  rw [hkey] at hothers
  rw [hmodify, hsplit, List.map_append, List.map_cons, if_pos ⟨hlive, hkey⟩,
    map_eq_of_not fun y hy hq => hothers y (List.mem_append_left _ hy) hq.1 hq.2,
    map_eq_of_not fun y hy hq => hothers y (List.mem_append_right _ hy) hq.1 hq.2]

omit [DecidableEq κ] in
/-- What is live behind a kill was live before, and has another key. -/
private theorem of_live_modify (hdistinct : Distinct live key p) (hx : p.get? a = some x)
    (hlive : live x = true) (hdead : live (f x) = false) (hy : y ∈ (p.modify a f).flat)
    (hlive' : live y = true) : y ∈ p.flat ∧ key y ≠ key x := by
  obtain ⟨pre, post, hsplit, hmodify⟩ := flat_split hx
  unfold Distinct at hdistinct
  rw [hsplit] at hdistinct
  have hothers := ne_key_of_distinct hdistinct hlive
  rw [hsplit]
  rw [hmodify, List.mem_append, List.mem_cons] at hy
  rcases hy with hy | rfl | hy
  · exact ⟨List.mem_append_left _ hy, hothers y (List.mem_append_left _ hy) hlive'⟩
  · rw [hdead] at hlive'
    exact nomatch hlive'
  · exact ⟨List.mem_append_right _ (List.mem_cons_of_mem x hy),
      hothers y (List.mem_append_right _ hy) hlive'⟩

omit [DecidableEq κ] in
theorem Distinct.modify (hdistinct : Distinct live key p) (h : p.get? a = some x)
    (hdead : live (f x) = false) : Distinct live key (p.modify a f) := by
  obtain ⟨pre, post, hsplit, hmodify⟩ := flat_split h
  unfold Distinct at hdistinct ⊢
  rw [hsplit] at hdistinct
  rw [hmodify]
  refine hdistinct.sublist (List.Sublist.map key ?_)
  rw [List.filter_append, List.filter_append, List.filter_cons_of_neg (by simp [hdead])]
  exact List.Sublist.append_left (List.Sublist.filter live (List.sublist_cons_self x post)) _

theorem Covers.modify_update (h : Covers live key p ix) (hdistinct : Distinct live key p)
    (hx : p.get? a = some x) (hlive : live x = true) (hkey : key x = some k)
    (hdead : live (f x) = false) : Covers live key (p.modify a f) (Function.update ix k none) := by
  intro y hy hlive'
  obtain ⟨hmem, hne⟩ := of_live_modify hdistinct hx hlive hdead hy hlive'
  obtain ⟨k', hkey', hsome⟩ := h y hmem hlive'
  refine ⟨k', hkey', ?_⟩
  rw [hkey, hkey'] at hne
  rw [Function.update_of_ne fun heq => hne (congrArg some heq)]
  exact hsome

/-- The entries lead to live elements with their keys. -/
def Leads (live : α → Bool) (key : α → Option κ) (p : Pages α) (es : List (κ × Addr)) : Prop :=
  ∀ e ∈ es, ∃ x, p.get? e.2 = some x ∧ live x = true ∧ key x = some e.1

variable {e : κ × Addr} {es : List (κ × Addr)}

omit [DecidableEq κ] in
theorem Leads.modify (h : Leads live key p (e :: es)) (hkeys : ((e :: es).map Prod.fst).Nodup)
    (f : α → α) : Leads live key (p.modify e.2 f) es := by
  intro e' he'
  obtain ⟨x, hx, -, hkey⟩ := h e List.mem_cons_self
  obtain ⟨y, hy, hlive', hkey'⟩ := h e' (List.mem_cons_of_mem e he')
  have hne : e.2 ≠ e'.2 := by
    intro heq
    rw [← heq, hx] at hy
    obtain rfl := Option.some.inj hy
    rw [hkey] at hkey'
    have hmem := List.mem_map_of_mem (f := Prod.fst) he'
    rw [← Option.some.inj hkey'] at hmem
    exact (List.nodup_cons.mp hkeys).1 hmem
  exact ⟨y, by rw [get?_modify_ne hne, hy], hlive', hkey'⟩

omit [DecidableEq κ] in
/-- The entries change live elements, each of them once. -/
theorem Rel.modifyAll {R : α → α → Prop} (hrefl : ∀ x, R x x)
    (htrans : ∀ x y z, R x y → R y z → R x z) (hlive : ∀ x, live x = true → R x (f x))
    (hkeys : (es.map Prod.fst).Nodup) (h : Leads live key p es) :
    Rel R p (p.modifyAll (es.map Prod.snd) f) := by
  induction es generalizing p with
  | nil => exact ⟨List.forall₂_same.mpr fun _ _ => List.forall₂_same.mpr fun x _ => hrefl x,
      List.forall₂_same.mpr fun x _ => hrefl x⟩
  | cons e es ih =>
    obtain ⟨x, hx, hxlive, -⟩ := h e List.mem_cons_self
    have hone : Rel R p (p.modify e.2 f) := by
      refine Rel.modify hrefl fun y hy => ?_
      rw [hx] at hy
      exact Option.some.inj hy ▸ hlive x hxlive
    exact hone.trans htrans (ih (List.nodup_cons.mp hkeys).2 (h.modify hkeys f))

omit [DecidableEq κ] in
/-- Each of the entries kills one element. -/
theorem countP_modifyAll (hdead : ∀ x, live (f x) = false) (hkeys : (es.map Prod.fst).Nodup)
    (h : Leads live key p es) :
    (p.modifyAll (es.map Prod.snd) f).flat.countP live + es.length = p.flat.countP live := by
  induction es generalizing p with
  | nil => rfl
  | cons e es ih =>
    obtain ⟨x, hx, hlive, -⟩ := h e List.mem_cons_self
    have hone := countP_modify hx hlive (hdead x)
    have hrest := ih (List.nodup_cons.mp hkeys).2 (h.modify hkeys f)
    rw [List.map_cons, modifyAll, List.foldl_cons, List.length_cons]
    rw [modifyAll] at hrest
    omega

omit [DecidableEq κ] in
/-- If the entries are those of all live elements, everything is dead in the end. -/
theorem flat_modifyAll (hdead : ∀ x, live (f x) = false) (hkeys : (es.map Prod.fst).Nodup)
    (h : Leads live key p es) (hdistinct : Distinct live key p)
    (hall : ∀ y ∈ p.flat, live y = true → ∃ k ∈ es.map Prod.fst, key y = some k) :
    (p.modifyAll (es.map Prod.snd) f).flat = p.flat.map fun y => if live y = true then f y else y := by
  induction es generalizing p with
  | nil =>
    symm
    apply map_eq_of_not
    intro y hy hlive
    obtain ⟨k, hk, -⟩ := hall y hy hlive
    exact nomatch hk
  | cons e es ih =>
    obtain ⟨x, hx, hlive, hkey⟩ := h e List.mem_cons_self
    obtain ⟨pre, post, hsplit, hmodify⟩ := flat_split hx
    have hrest := ih (List.nodup_cons.mp hkeys).2 (h.modify hkeys f)
      (hdistinct.modify hx (hdead x)) ?_
    · rw [List.map_cons, modifyAll, List.foldl_cons]
      rw [modifyAll] at hrest
      rw [hrest, hmodify, hsplit]
      simp [hlive, hdead]
    · intro y hy hlive'
      obtain ⟨hmem, hne⟩ := of_live_modify hdistinct hx hlive (hdead x) hy hlive'
      obtain ⟨k, hk, hkey'⟩ := hall y hmem hlive'
      rw [List.map_cons, List.mem_cons] at hk
      rcases hk with rfl | hk
      · exact absurd (hkey'.trans hkey.symm) hne
      · exact ⟨k, hk, hkey'⟩

end Pages

end Lib
