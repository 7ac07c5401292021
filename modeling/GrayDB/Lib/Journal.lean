import Mathlib.Data.List.Basic
import Mathlib.Data.List.Induction
import Mathlib.Data.List.Nodup

/-!
# Journals of removals and additions

A journal is a list of events.  Each event has a stamp, removes some of the entries that
are there, and adds entries behind them.  `survivors` is what is left in the end.

* A journal that is passed twice doubles what it adds and does not remove:
  `foldl_after_twice`.
* A store that removes more than the events say loses entries.  `survivors_eq_iff` says
  exactly when it does not.
* A store that keeps every entry, with the stamps at which it came and went, can answer
  for any stamp: `visible_versions`.
* `RowChange` is the change of a table whose rows have a key, as an event.
-/

namespace Lib

structure Event (α : Type) where
  stamp : Nat
  /-- The entries that the event removes. -/
  kills : α → Bool
  adds : List α

variable {α β ι : Type}

namespace Event

def after (entries : List α) (e : Event α) : List α :=
  entries.filter (fun a => !e.kills a) ++ e.adds

/-- None of the events removes the entry. -/
def Spared (es : List (Event α)) (a : α) : Prop := ∀ e ∈ es, e.kills a = false

end Event

/-- What the events leave. -/
def survivors (es : List (Event α)) : List α := es.foldl Event.after []

theorem foldl_after (es : List (Event α)) (entries : List α) :
    es.foldl Event.after entries
      = entries.filter (fun a => es.all fun e => !e.kills a) ++ survivors es := by
  induction es using List.reverseRecOn generalizing entries with
  | nil => simp [survivors]
  | append_singleton es e ih =>
    unfold survivors
    rw [List.foldl_append, List.foldl_append, ih entries]
    simp only [List.foldl_cons, List.foldl_nil, Event.after, List.filter_append,
      List.filter_filter, List.all_append, List.all_cons, List.all_nil, Bool.and_true,
      List.append_assoc, survivors]
    congr 1
    apply List.filter_congr
    intro a _
    exact Bool.and_comm _ _

theorem survivors_cons (e : Event α) (es : List (Event α)) : survivors (e :: es)
    = e.adds.filter (fun a => es.all fun e => !e.kills a) ++ survivors es := by
  show es.foldl Event.after (Event.after [] e) = _
  rw [foldl_after]
  rfl

theorem survivors_append_singleton (es : List (Event α)) (e : Event α) :
    survivors (es ++ [e]) = Event.after (survivors es) e := by
  unfold survivors
  rw [List.foldl_append]
  rfl

private theorem all_spared {es : List (Event α)} {a : α} :
    (es.all fun e => !e.kills a) = true ↔ Event.Spared es a := by
  simp [Event.Spared]

/-- A survivor is added by some event and removed by no later one. -/
theorem mem_survivors {es : List (Event α)} {a : α} : a ∈ survivors es ↔
    ∃ pre e post, es = pre ++ e :: post ∧ a ∈ e.adds ∧ Event.Spared post a := by
  induction es with
  | nil => simp [survivors]
  | cons e es ih =>
    rw [survivors_cons, List.mem_append, List.mem_filter, all_spared, ih]
    constructor
    · rintro (⟨ha, hspared⟩ | ⟨pre, e', post, rfl, ha, hspared⟩)
      · exact ⟨[], e, es, rfl, ha, hspared⟩
      · exact ⟨e :: pre, e', post, rfl, ha, hspared⟩
    · rintro ⟨pre, e', post, hes, ha, hspared⟩
      cases pre with
      | nil =>
        obtain ⟨rfl, rfl⟩ := List.cons.inj hes
        exact Or.inl ⟨ha, hspared⟩
      | cons e₀ pre =>
        obtain ⟨rfl, rfl⟩ := List.cons.inj hes
        exact Or.inr ⟨pre, e', post, rfl, ha, hspared⟩

/-- Events on entries that stand for others. -/
theorem survivors_map {f : α → β} {e : ι → Event α} {e' : ι → Event β} {is : List ι}
    (hadds : ∀ i ∈ is, (e' i).adds = (e i).adds.map f)
    (hkills : ∀ i ∈ is, ∀ a, (e' i).kills (f a) = (e i).kills a) :
    survivors (is.map e') = (survivors (is.map e)).map f := by
  induction is with
  | nil => rfl
  | cons i is ih =>
    have hrest := ih (fun j hj => hadds j (List.mem_cons_of_mem i hj))
      (fun j hj => hkills j (List.mem_cons_of_mem i hj))
    rw [List.map_cons, List.map_cons, survivors_cons, survivors_cons, List.map_append, hrest,
      hadds i List.mem_cons_self, List.filter_map]
    congr 2
    apply List.filter_congr
    intro a _
    simp only [Function.comp_apply, List.all_map]
    rw [Bool.eq_iff_iff, List.all_eq_true, List.all_eq_true]
    apply forall₂_congr
    intro j hj
    simp only [Function.comp_apply, hkills j (List.mem_cons_of_mem i hj)]

/-! ## Events that come twice -/

private theorem filter_survivors {es : List (Event α)} {p : α → Bool}
    (hp : ∀ a, p a = true → Event.Spared es a) :
    (survivors es).filter p = (es.flatMap Event.adds).filter p := by
  induction es with
  | nil => rfl
  | cons e es ih =>
    have hspared : ∀ a, p a = true → Event.Spared es a := fun a ha e' he' =>
      hp a ha e' (List.mem_cons_of_mem e he')
    rw [survivors_cons, List.flatMap_cons, List.filter_append, List.filter_append, ih hspared,
      List.filter_filter]
    congr 1
    apply List.filter_congr
    intro a _
    cases ha : p a with
    | false => rfl
    | true => exact all_spared.mpr (hspared a ha)

/-- The events come again: an entry that they add and none of them removes is there twice. -/
theorem foldl_after_twice (es : List (Event α)) (entries : List α) :
    es.foldl Event.after (es.foldl Event.after entries)
      = entries.filter (fun a => es.all fun e => !e.kills a) ++
        (es.flatMap Event.adds).filter (fun a => es.all fun e => !e.kills a) ++ survivors es := by
  have hadded : (survivors es).filter (fun a => es.all fun e => !e.kills a) = _ :=
    filter_survivors fun a ha => all_spared.mp ha
  rw [foldl_after, foldl_after es entries, List.filter_append, List.filter_filter, hadded]
  congr 2
  apply List.filter_congr
  intro a _
  exact Bool.and_self _

/-- No addition is there twice exactly if each of them is removed by some event. -/
theorem filter_adds_eq_nil_iff (es : List (Event α)) :
    (es.flatMap Event.adds).filter (fun a => es.all fun e => !e.kills a) = [] ↔
      ∀ e ∈ es, ∀ a ∈ e.adds, ∃ e' ∈ es, e'.kills a = true := by
  rw [List.filter_eq_nil_iff]
  simp only [List.mem_flatMap, all_spared, Event.Spared]
  constructor
  · intro h e he a ha
    have hsome := h a ⟨e, he, ha⟩
    simpa using hsome
  · rintro h a ⟨e, he, ha⟩ hspared
    obtain ⟨e', he', hkills⟩ := h e he a ha
    rw [hspared e' he'] at hkills
    exact Bool.false_ne_true hkills

/-! ## Events that remove more -/

section Coarser

variable {fine coarse : ι → Event α} {is : List ι}

private theorem spared_of_coarser (hkills : ∀ i ∈ is, ∀ a, (fine i).kills a = true →
    (coarse i).kills a = true) {a : α} (h : Event.Spared (is.map coarse) a) :
    Event.Spared (is.map fine) a := by
  intro e he
  obtain ⟨i, hi, rfl⟩ := List.mem_map.mp he
  cases hk : (fine i).kills a with
  | false => rfl
  | true =>
    have hno := h (coarse i) (List.mem_map_of_mem hi)
    rw [hkills i hi a hk] at hno
    exact hno

theorem survivors_sublist (hadds : ∀ i ∈ is, (coarse i).adds = (fine i).adds)
    (hkills : ∀ i ∈ is, ∀ a, (fine i).kills a = true → (coarse i).kills a = true) :
    (survivors (is.map coarse)).Sublist (survivors (is.map fine)) := by
  induction is with
  | nil => exact List.Sublist.slnil
  | cons i is ih =>
    have hkills' : ∀ j ∈ is, ∀ a, (fine j).kills a = true → (coarse j).kills a = true :=
      fun j hj => hkills j (List.mem_cons_of_mem i hj)
    rw [List.map_cons, List.map_cons, survivors_cons, survivors_cons, hadds i List.mem_cons_self]
    apply List.Sublist.append
    · apply List.monotone_filter_right
      intro a ha
      rw [all_spared] at ha ⊢
      exact spared_of_coarser hkills' ha
    · exact ih (fun j hj => hadds j (List.mem_cons_of_mem i hj)) hkills'

/-- Nothing is lost exactly if each entry that the events spare is spared by the coarser
events, too. -/
theorem survivors_eq_iff (hadds : ∀ i ∈ is, (coarse i).adds = (fine i).adds)
    (hkills : ∀ i ∈ is, ∀ a, (fine i).kills a = true → (coarse i).kills a = true) :
    survivors (is.map coarse) = survivors (is.map fine) ↔
      ∀ pre i post, is = pre ++ i :: post → ∀ a ∈ (fine i).adds,
        Event.Spared (post.map fine) a → Event.Spared (post.map coarse) a := by
  induction is with
  | nil => simp
  | cons i is ih =>
    have hadds' : ∀ j ∈ is, (coarse j).adds = (fine j).adds :=
      fun j hj => hadds j (List.mem_cons_of_mem i hj)
    have hkills' : ∀ j ∈ is, ∀ a, (fine j).kills a = true → (coarse j).kills a = true :=
      fun j hj => hkills j (List.mem_cons_of_mem i hj)
    have ih := ih hadds' hkills'
    have hrest := survivors_sublist hadds' hkills'
    have hfirst : ((fine i).adds.filter fun a => (is.map coarse).all fun e => !e.kills a).Sublist
        ((fine i).adds.filter fun a => (is.map fine).all fun e => !e.kills a) := by
      apply List.monotone_filter_right
      intro a ha
      rw [all_spared] at ha ⊢
      exact spared_of_coarser hkills' ha
    rw [List.map_cons, List.map_cons, survivors_cons, survivors_cons, hadds i List.mem_cons_self]
    constructor
    · intro heq
      -- Both parts are sublists, so each of them is equal.
      have hlen := congrArg List.length heq
      rw [List.length_append, List.length_append] at hlen
      have hle := hfirst.length_le
      have hle' := hrest.length_le
      have heq₁ := hfirst.eq_of_length (by omega)
      have heq₂ := ih.mp (hrest.eq_of_length (by omega))
      intro pre j post hsplit a ha hspared
      cases pre with
      | nil =>
        obtain ⟨rfl, rfl⟩ := List.cons.inj hsplit
        have hmem : a ∈ (fine i).adds.filter fun a => (is.map fine).all fun e => !e.kills a :=
          List.mem_filter.mpr ⟨ha, all_spared.mpr hspared⟩
        rw [← heq₁] at hmem
        exact all_spared.mp (List.mem_filter.mp hmem).2
      | cons i₀ pre =>
        obtain ⟨rfl, rfl⟩ := List.cons.inj hsplit
        exact heq₂ pre j post rfl a ha hspared
    · intro hall
      congr 1
      · apply List.filter_congr
        intro a ha
        rw [Bool.eq_iff_iff, all_spared, all_spared]
        exact ⟨spared_of_coarser hkills', hall [] i is rfl a ha⟩
      · exact ih.mpr fun pre j post hsplit => hall (i :: pre) j post (by rw [hsplit]; rfl)

end Coarser

/-! ## Versions -/

/-- An entry, with the stamps at which it came and went. -/
structure Version (α : Type) where
  entry : α
  born : Nat
  died : Option Nat := none
  deriving DecidableEq, Repr

def Version.visibleAt (stamp : Nat) (v : Version α) : Bool :=
  decide (v.born ≤ stamp) && !v.died.any fun d => decide (d ≤ stamp)

/-- The version once the event has passed. -/
def Version.past (e : Event α) (v : Version α) : Version α :=
  if v.died.isNone && e.kills v.entry then { v with died := some e.stamp } else v

def Event.record (vs : List (Version α)) (e : Event α) : List (Version α) :=
  vs.map (Version.past e) ++ e.adds.map fun a => { entry := a, born := e.stamp }

/-- All entries that were ever there. -/
def versions (es : List (Event α)) : List (Version α) := es.foldl Event.record []

theorem versions_append_singleton (es : List (Event α)) (e : Event α) :
    versions (es ++ [e]) = Event.record (versions es) e := by
  unfold versions
  rw [List.foldl_append]
  rfl

/-- The stamps of a version are stamps of events. -/
theorem stamps_le_of_mem_versions {es : List (Event α)} {stamp : Nat}
    (h : ∀ e ∈ es, e.stamp ≤ stamp) :
    ∀ v ∈ versions es, v.born ≤ stamp ∧ ∀ d ∈ v.died, d ≤ stamp := by
  induction es using List.reverseRecOn with
  | nil => simp [versions]
  | append_singleton es e ih =>
    have ih := ih fun e' he' => h e' (List.mem_append_left _ he')
    have hlast : e.stamp ≤ stamp := h e (by simp)
    rw [versions_append_singleton]
    intro v hv
    rcases List.mem_append.mp hv with hv | hv
    · obtain ⟨w, hw, rfl⟩ := List.mem_map.mp hv
      unfold Version.past
      split
      · refine ⟨(ih w hw).1, ?_⟩
        intro d hd
        rw [← Option.some.inj hd]
        exact hlast
      · exact ih w hw
    · obtain ⟨a, -, rfl⟩ := List.mem_map.mp hv
      exact ⟨hlast, by simp⟩

/-- A later event does not change what is visible before its stamp. -/
private theorem past_visibleAt_of_lt {e : Event α} {stamp : Nat} (h : stamp < e.stamp)
    (v : Version α) : (v.past e).visibleAt stamp = v.visibleAt stamp := by
  unfold Version.past
  split
  · rename_i hkills
    rw [Bool.and_eq_true, Option.isNone_iff_eq_none] at hkills
    simp [Version.visibleAt, hkills.1, h]
  · rfl

/-- An event up to a stamp hides what it removes. -/
private theorem past_visibleAt_of_le {e : Event α} {stamp : Nat} (h : e.stamp ≤ stamp)
    {v : Version α} (hdied : ∀ d ∈ v.died, d ≤ stamp) :
    (v.past e).visibleAt stamp = (!e.kills v.entry && v.visibleAt stamp) := by
  unfold Version.past
  cases hd : v.died with
  | none => cases e.kills v.entry <;> simp [Version.visibleAt, hd, h]
  | some d =>
    have hdead : d ≤ stamp := hdied d hd
    simp [Version.visibleAt, hd, hdead]

private theorem entry_comp_past (e : Event α) :
    Version.entry ∘ Version.past e = Version.entry := by
  funext v
  simp only [Function.comp_apply, Version.past]
  split <;> rfl

/-- The versions that are not gone are what the events leave. -/
theorem live_versions (es : List (Event α)) :
    ((versions es).filter fun v => v.died.isNone).map Version.entry = survivors es := by
  induction es using List.reverseRecOn with
  | nil => rfl
  | append_singleton es e ih =>
    have hnew : (e.adds.map fun a => ({ entry := a, born := e.stamp } : Version α)).filter
        (fun v => v.died.isNone) = e.adds.map fun a => { entry := a, born := e.stamp } := by
      apply List.filter_eq_self.mpr
      intro v hv
      obtain ⟨a, -, rfl⟩ := List.mem_map.mp hv
      rfl
    rw [versions_append_singleton, Event.record, List.filter_append, List.map_append, hnew,
      List.filter_map, List.map_map, entry_comp_past, survivors_append_singleton, ← ih, Event.after,
      List.filter_map, List.filter_filter, List.map_map]
    congr 1
    · congr 1
      apply List.filter_congr
      intro v _
      simp only [Function.comp_apply, Version.past]
      cases hd : v.died <;> cases hk : e.kills v.entry <;> simp [hd]
    · exact List.map_id' e.adds

/-- With the stamps in order, the versions that are visible at a stamp are what the events
up to the stamp leave. -/
theorem visible_versions {es : List (Event α)} (hmono : (es.map Event.stamp).Pairwise (· ≤ ·))
    (stamp : Nat) : ((versions es).filter (Version.visibleAt stamp)).map Version.entry
      = survivors (es.filter fun e => decide (e.stamp ≤ stamp)) := by
  induction es using List.reverseRecOn with
  | nil => rfl
  | append_singleton es e ih =>
    rw [List.map_append, List.pairwise_append] at hmono
    obtain ⟨hes, -, hlast⟩ := hmono
    have ih := ih hes
    rw [versions_append_singleton, Event.record, List.filter_append, List.map_append,
      List.filter_map, List.map_map, entry_comp_past, List.filter_append]
    by_cases hstamp : e.stamp ≤ stamp
    · have hle : ∀ e' ∈ es, e'.stamp ≤ stamp := fun e' he' =>
        Nat.le_trans (hlast _ (List.mem_map_of_mem he') _ (by simp)) hstamp
      have hstamps := stamps_le_of_mem_versions hle
      have hnew : (e.adds.map fun a => ({ entry := a, born := e.stamp } : Version α)).filter
          (Version.visibleAt stamp) = e.adds.map fun a => { entry := a, born := e.stamp } := by
        apply List.filter_eq_self.mpr
        intro v hv
        obtain ⟨a, -, rfl⟩ := List.mem_map.mp hv
        simp [Version.visibleAt, hstamp]
      rw [List.filter_cons_of_pos (by simpa using hstamp), List.filter_nil,
        survivors_append_singleton, ← ih, Event.after, hnew, List.filter_map, List.filter_filter]
      congr 1
      · congr 1
        apply List.filter_congr
        intro v hv
        exact past_visibleAt_of_le hstamp (hstamps v hv).2
      · rw [List.map_map]
        exact List.map_id' e.adds
    · have hlt : stamp < e.stamp := Nat.lt_of_not_le hstamp
      have hnew : (e.adds.map fun a => ({ entry := a, born := e.stamp } : Version α)).filter
          (Version.visibleAt stamp) = [] := by
        apply List.filter_eq_nil_iff.mpr
        intro v hv
        obtain ⟨a, -, rfl⟩ := List.mem_map.mp hv
        simp [Version.visibleAt, hlt]
      rw [List.filter_cons_of_neg (by simpa using hlt), List.filter_nil, List.append_nil, ← ih,
        hnew, List.map_nil, List.append_nil]
      congr 1
      apply List.filter_congr
      intro v _
      exact past_visibleAt_of_lt hlt v

/-- Every entry that was added has its version, in the order in which they came. -/
theorem entries_versions (es : List (Event α)) :
    (versions es).map Version.entry = es.flatMap Event.adds := by
  induction es using List.reverseRecOn with
  | nil => rfl
  | append_singleton es e ih =>
    rw [versions_append_singleton, Event.record, List.map_append, List.map_map, entry_comp_past, ih,
      List.flatMap_append, List.flatMap_singleton, List.map_map]
    congr 1
    exact List.map_id' e.adds

/-! ## Tables with a key -/

/-- A change of a table. -/
inductive RowChange (ρ : Type) where
  | insert (row : ρ)
  | update (old new : ρ)
  | delete (old : ρ)
  | truncate
  deriving DecidableEq, Repr

namespace RowChange

variable {ρ κ : Type} [DecidableEq κ]

/-- The rows are found by their keys. -/
def event (key : ρ → κ) (stamp : Nat) : RowChange ρ → Event ρ
  | .insert row => { stamp, kills := fun _ => false, adds := [row] }
  | .update old new => { stamp, kills := fun a => decide (key a = key old), adds := [new] }
  | .delete old => { stamp, kills := fun a => decide (key a = key old), adds := [] }
  | .truncate => { stamp, kills := fun _ => true, adds := [] }

/-- The row that changes is there, and the new one has a key of its own. -/
def Valid (key : ρ → κ) (table : List ρ) : RowChange ρ → Prop
  | .insert row => ∀ a ∈ table, key a ≠ key row
  | .update old new => old ∈ table ∧ ∀ a ∈ table, key a ≠ key old → key a ≠ key new
  | .delete old => old ∈ table
  | .truncate => True

/-- A valid change keeps the keys distinct. -/
theorem Valid.nodup {key : ρ → κ} {table : List ρ} {c : RowChange ρ} (h : c.Valid key table)
    (hnodup : (table.map key).Nodup) (stamp : Nat) :
    (((c.event key stamp).after table).map key).Nodup := by
  have hrest : ∀ p : ρ → Bool, ((table.filter p).map key).Nodup := fun p =>
    hnodup.sublist (List.filter_sublist.map key)
  unfold Event.after
  rw [List.map_append]
  cases c with
  | insert row =>
    refine List.nodup_append.mpr ⟨hrest _, by simp [event], ?_⟩
    rintro k hk k' hk' rfl
    obtain ⟨a, ha, rfl⟩ := List.mem_map.mp hk
    have heq : key a = key row := by simpa [event] using hk'
    exact h a (List.mem_filter.mp ha).1 heq
  | update old new =>
    refine List.nodup_append.mpr ⟨hrest _, by simp [event], ?_⟩
    rintro k hk k' hk' rfl
    obtain ⟨a, ha, rfl⟩ := List.mem_map.mp hk
    have heq : key a = key new := by simpa [event] using hk'
    obtain ⟨hmem, hkept⟩ := List.mem_filter.mp ha
    exact h.2 a hmem (by simpa [event] using hkept) heq
  | delete old =>
    simp only [event, List.map_nil, List.append_nil]
    exact hrest _
  | truncate =>
    simp only [event, List.map_nil, List.append_nil]
    exact hrest _

/-- Every change is valid where it stands. -/
def ValidFrom (key : ρ → κ) (table : List ρ) : List (Nat × RowChange ρ) → Prop
  | [] => True
  | c :: cs => c.2.Valid key table ∧ ValidFrom key ((c.2.event key c.1).after table) cs

/-- A valid history keeps the keys distinct. -/
theorem ValidFrom.nodup {key : ρ → κ} {cs : List (Nat × RowChange ρ)} {table : List ρ}
    (h : ValidFrom key table cs) (hnodup : (table.map key).Nodup) :
    (((cs.map fun c => c.2.event key c.1).foldl Event.after table).map key).Nodup := by
  induction cs generalizing table with
  | nil => exact hnodup
  | cons c cs ih => exact ih h.2 (h.1.nodup hnodup c.1)

theorem validFrom_append {key : ρ → κ} {table : List ρ} {cs cs' : List (Nat × RowChange ρ)} :
    ValidFrom key table (cs ++ cs') ↔ ValidFrom key table cs ∧
      ValidFrom key ((cs.map fun c => c.2.event key c.1).foldl Event.after table) cs' := by
  induction cs generalizing table with
  | nil => simp [ValidFrom]
  | cons c cs ih =>
    rw [List.cons_append, ValidFrom, ih, ← and_assoc]
    rfl

/-- The rows that a change writes. -/
def written : RowChange ρ → List ρ
  | .insert row | .update _ row => [row]
  | .delete _ | .truncate => []

theorem adds_event (key : ρ → κ) (stamp : Nat) (c : RowChange ρ) :
    (c.event key stamp).adds = c.written := by
  cases c <;> rfl

/-- A change does to the table what it does under another key that tells the same rows
apart. -/
private theorem Valid.rekey {κ' : Type} [DecidableEq κ'] {key : ρ → κ} {key' : ρ → κ'}
    {table : List ρ} {c : RowChange ρ} (stamp : Nat)
    (hsame : ∀ a ∈ table ++ c.written, ∀ b ∈ table ++ c.written, key a = key b ↔ key' a = key' b)
    (h : c.Valid key table) : c.Valid key' table ∧
      (c.event key' stamp).after table = (c.event key stamp).after table := by
  have hkilled : ∀ old ∈ table, ∀ added : List ρ,
      Event.after table { stamp, kills := fun a => decide (key' a = key' old), adds := added }
        = Event.after table { stamp, kills := fun a => decide (key a = key old), adds := added } := by
    intro old hold added
    unfold Event.after
    congr 1
    apply List.filter_congr
    intro a ha
    have hiff := hsame a (List.mem_append_left _ ha) old (List.mem_append_left _ hold)
    simp only [hiff]
  cases c with
  | insert row =>
    refine ⟨fun a ha heq => h a ha ?_, rfl⟩
    exact (hsame a (List.mem_append_left _ ha) row (by simp [written])).mpr heq
  | update old new =>
    obtain ⟨hold, hnew⟩ := h
    refine ⟨⟨hold, fun a ha hne heq => hnew a ha (fun hk => hne ?_) ?_⟩, hkilled old hold _⟩
    · exact (hsame a (List.mem_append_left _ ha) old (List.mem_append_left _ hold)).mp hk
    · exact (hsame a (List.mem_append_left _ ha) new (by simp [written])).mpr heq
  | delete old => exact ⟨h, hkilled old h _⟩
  | truncate => exact ⟨trivial, rfl⟩

/-- A valid history is valid, and leaves the same rows, under another key that tells the
same rows apart. -/
theorem ValidFrom.rekey {κ' : Type} [DecidableEq κ'] {key : ρ → κ} {key' : ρ → κ'}
    {cs : List (Nat × RowChange ρ)} {table rows : List ρ}
    (hsame : ∀ a ∈ rows, ∀ b ∈ rows, key a = key b ↔ key' a = key' b)
    (hrows : ∀ a ∈ table ++ cs.flatMap (·.2.written), a ∈ rows) (h : ValidFrom key table cs) :
    ValidFrom key' table cs ∧ (cs.map fun c => c.2.event key' c.1).foldl Event.after table
      = (cs.map fun c => c.2.event key c.1).foldl Event.after table := by
  induction cs generalizing table with
  | nil => exact ⟨trivial, rfl⟩
  | cons c cs ih =>
    obtain ⟨hfirst, hrest⟩ := h
    rw [List.flatMap_cons] at hrows
    have hmem : ∀ a ∈ table ++ c.2.written, a ∈ rows := fun a ha => hrows a <| by
      rw [← List.append_assoc]
      exact List.mem_append_left _ ha
    obtain ⟨hvalid, hafter⟩ :=
      hfirst.rekey c.1 fun a ha b hb => hsame a (hmem a ha) b (hmem b hb)
    have hnext : ∀ a ∈ (c.2.event key c.1).after table ++ cs.flatMap (·.2.written), a ∈ rows := by
      intro a ha
      rw [Event.after, adds_event, List.append_assoc] at ha
      rcases List.mem_append.mp ha with ha | ha
      · exact hrows a (List.mem_append_left _ (List.mem_of_mem_filter ha))
      · exact hrows a (List.mem_append_right _ ha)
    obtain ⟨hvalid', hafter'⟩ := ih hnext hrest
    rw [List.map_cons, List.map_cons, List.foldl_cons, List.foldl_cons, hafter]
    exact ⟨⟨hvalid, hafter ▸ hvalid'⟩, hafter'⟩

/-- Rows that are inserted first have keys of their own. -/
theorem ValidFrom.inserts {key : ρ → κ} {stamp : Nat} {cs : List (Nat × RowChange ρ)} :
    ∀ {rows table : List ρ},
      ValidFrom key table (rows.map (fun row => (stamp, .insert row)) ++ cs) →
        (rows.map key).Nodup ∧ ∀ row ∈ rows, ∀ a ∈ table, key a ≠ key row
  | [], _, _ => ⟨List.nodup_nil, by simp⟩
  | row :: rows, table, ⟨hrow, hrest⟩ => by
    have hafter : (event key stamp (.insert row)).after table = table ++ [row] := by
      simp [Event.after, event]
    obtain ⟨hnodup, hnew⟩ := inserts (hafter ▸ hrest)
    refine ⟨List.nodup_cons.mpr ⟨fun hmem => ?_, hnodup⟩, fun r hr a ha => ?_⟩
    · obtain ⟨r, hr, hkey⟩ := List.mem_map.mp hmem
      exact hnew r hr row (by simp) hkey.symm
    · cases List.mem_cons.mp hr with
      | inl heq => exact heq ▸ hrow a ha
      | inr hmem => exact hnew r hmem a (List.mem_append_left _ ha)

/-- The key that a change writes, or deletes. -/
def touched (key : ρ → κ) : RowChange ρ → List κ
  | .insert row | .update _ row => [key row]
  | .delete old => [key old]
  | .truncate => []

/-- Only inserts and deletes. -/
def InsertsOrDeletes : RowChange ρ → Prop
  | .insert _ | .delete _ => True
  | .update _ _ | .truncate => False

instance : (c : RowChange ρ) → Decidable c.InsertsOrDeletes
  | .insert _ | .delete _ => inferInstanceAs (Decidable True)
  | .update _ _ | .truncate => inferInstanceAs (Decidable False)

/-- A key is touched again exactly when a row is deleted. -/
theorem ValidFrom.nodup_touched_iff {key : ρ → κ} {cs : List (Nat × RowChange ρ)} {table : List ρ}
    (h : ValidFrom key table cs) (hkinds : ∀ c ∈ cs, c.2.InsertsOrDeletes)
    (hnodup : (table.map key).Nodup) :
    (table.map key ++ cs.flatMap fun c => c.2.touched key).Nodup ↔
      ∀ c ∈ cs, ∀ old, c.2 ≠ .delete old := by
  induction cs generalizing table with
  | nil => simpa using hnodup
  | cons c cs ih =>
    obtain ⟨stamp, change⟩ := c
    obtain ⟨hvalid, hrest⟩ := h
    have hkinds' : ∀ c ∈ cs, c.2.InsertsOrDeletes := fun c hc => hkinds c (List.mem_cons_of_mem _ hc)
    cases change with
    | insert row =>
      have hafter : (event key stamp (.insert row)).after table = table ++ [row] := by
        simp [Event.after, event]
      have hnext := ih hrest hkinds' (hvalid.nodup hnodup stamp)
      rw [hafter, List.map_append, List.append_assoc] at hnext
      rw [List.flatMap_cons, List.forall_mem_cons]
      exact hnext.trans ⟨fun h => ⟨nofun, h⟩, And.right⟩
    | delete old =>
      -- the row is there, so its key was touched before
      have hmem : key old ∈ table.map key := List.mem_map_of_mem hvalid
      refine iff_of_false (fun hall => ?_) fun hnone => hnone _ List.mem_cons_self old rfl
      rw [List.flatMap_cons] at hall
      exact (List.nodup_append.mp hall).2.2 _ hmem (key old) (by simp [touched]) rfl
    | update old new => exact (hkinds _ List.mem_cons_self).elim
    | truncate => exact (hkinds _ List.mem_cons_self).elim

/-- The changes up to a stamp are valid, too. -/
theorem ValidFrom.upTo {key : ρ → κ} {cs : List (Nat × RowChange ρ)}
    (hmono : (cs.map Prod.fst).Pairwise (· ≤ ·)) (stamp : Nat) {table : List ρ}
    (h : ValidFrom key table cs) : ValidFrom key table (cs.filter fun c => c.1 ≤ stamp) := by
  induction cs generalizing table with
  | nil => exact h
  | cons c cs ih =>
    rw [List.map_cons, List.pairwise_cons] at hmono
    by_cases hc : c.1 ≤ stamp
    · rw [List.filter_cons_of_pos (by simpa using hc)]
      exact ⟨h.1, ih hmono.2 h.2⟩
    · have hnone : cs.filter (fun c => c.1 ≤ stamp) = [] := by
        apply List.filter_eq_nil_iff.mpr
        intro c' hc'
        have hle := hmono.1 c'.1 (List.mem_map_of_mem hc')
        simp only [decide_eq_true_eq]
        omega
      rw [List.filter_cons_of_neg (by simpa using hc), hnone]
      trivial

instance decidableValid [DecidableEq ρ] (key : ρ → κ) (table : List ρ) (c : RowChange ρ) :
    Decidable (c.Valid key table) := by
  unfold Valid
  cases c <;> infer_instance

instance decidableValidFrom [DecidableEq ρ] (key : ρ → κ) :
    (cs : List (Nat × RowChange ρ)) → (table : List ρ) → Decidable (ValidFrom key table cs)
  | [], _ => inferInstanceAs (Decidable True)
  | c :: cs, table =>
    let _ := decidableValidFrom key cs ((c.2.event key c.1).after table)
    inferInstanceAs (Decidable (c.2.Valid key table ∧
      ValidFrom key ((c.2.event key c.1).after table) cs))

end RowChange

end Lib
