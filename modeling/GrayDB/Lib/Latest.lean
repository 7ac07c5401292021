import Mathlib.Data.List.MinMax
import Mathlib.Data.List.Dedup
import Mathlib.Data.List.Pairwise
import GrayDB.Lib.Journal

/-!
# The latest version of each key

A log of writes, in which a write sets a key or removes it, and has a version.  `latest`
reads the log without regard to its order: for each key it takes the write with the
greatest version.  `latest_perm` says that this is the table that the writes leave one
after the other, if the versions of each key rise along the log.
-/

namespace Lib

/-- A key is set, or removed. -/
structure Write (κ ρ : Type) where
  key : κ
  version : Nat
  value : Option ρ
  deriving DecidableEq, Repr

variable {κ ρ : Type} [DecidableEq κ]

namespace Write

/-- The write as an event of a journal of rows that show their keys. -/
def event (key : ρ → κ) (w : Write κ ρ) : Event ρ where
  stamp := w.version
  kills a := decide (key a = w.key)
  adds := w.value.toList

/-- The versions of each key rise. -/
def Rising (ws : List (Write κ ρ)) : Prop :=
  ws.Pairwise fun w w' => w.key = w'.key → w.version < w'.version

/-- The value of each key at its greatest version. -/
def latest (ws : List (Write κ ρ)) : List ρ :=
  (ws.map Write.key).dedup.filterMap fun k =>
    ((ws.filter fun w => w.key = k).argmax Write.version).bind Write.value

variable {ws : List (Write κ ρ)} {row : ρ}

omit [DecidableEq κ] in
/-- Two writes of a key differ in the version. -/
theorem Rising.eq_of_version (hrising : Rising ws) {w w' : Write κ ρ} (hw : w ∈ ws) (hw' : w' ∈ ws)
    (hkey : w.key = w'.key) (hversion : w.version = w'.version) : w = w' := by
  have hsymm : Std.Symm fun a b : Write κ ρ => a.key = b.key → a.version ≠ b.version :=
    ⟨fun _ _ h hk => (h hk.symm).symm⟩
  have hpair : ws.Pairwise fun a b => a.key = b.key → a.version ≠ b.version :=
    hrising.imp fun h hk => Nat.ne_of_lt (h hk)
  by_contra hne
  exact hpair.forall hw hw' hne hkey hversion

theorem mem_latest (hrising : Rising ws) : row ∈ latest ws ↔
    ∃ w ∈ ws, w.value = some row ∧ ∀ w' ∈ ws, w'.key = w.key → w'.version ≤ w.version := by
  unfold latest
  rw [List.mem_filterMap]
  constructor
  · intro ⟨k, _, hk⟩
    obtain ⟨w, hw, hvalue⟩ := Option.bind_eq_some_iff.mp hk
    obtain ⟨hmem, hkey⟩ := List.mem_filter.mp (List.argmax_mem hw)
    obtain rfl := of_decide_eq_true hkey
    refine ⟨w, hmem, hvalue, fun w' hw' hsame => ?_⟩
    exact List.le_of_mem_argmax (List.mem_filter.mpr ⟨hw', decide_eq_true hsame⟩) hw
  · intro ⟨w, hw, hvalue, hmax⟩
    refine ⟨w.key, List.mem_dedup.mpr (List.mem_map_of_mem hw), ?_⟩
    have hmem : w ∈ ws.filter fun w' => w'.key = w.key :=
      List.mem_filter.mpr ⟨hw, decide_eq_true rfl⟩
    obtain ⟨m, hm⟩ := Option.ne_none_iff_exists'.mp
      (mt (List.argmax_eq_none (f := Write.version)).mp (List.ne_nil_of_mem hmem))
    obtain ⟨hmws, hmkey⟩ := List.mem_filter.mp (List.argmax_mem hm)
    have hkey : m.key = w.key := of_decide_eq_true hmkey
    have hversion : m.version = w.version :=
      Nat.le_antisymm (hmax m hmws hkey) (List.le_of_mem_argmax hmem hm)
    rw [hm, hrising.eq_of_version hmws hw hkey hversion]
    exact hvalue

/-- The writes of rows that show their keys, read as events. -/
theorem mem_survivors_event (key : ρ → κ)
    (hkeys : ∀ w ∈ ws, ∀ row ∈ w.value, key row = w.key) :
    row ∈ survivors (ws.map (event key)) ↔
      ∃ pre w post, ws = pre ++ w :: post ∧ w.value = some row ∧ ∀ w' ∈ post, w'.key ≠ w.key := by
  rw [mem_survivors]
  constructor
  · intro ⟨pre', e, post', hsplit, hadds, hspared⟩
    obtain ⟨pre, rest, rfl, -, hrest⟩ := List.map_eq_append_iff.mp hsplit
    obtain ⟨w, post, rfl, rfl, rfl⟩ := List.map_eq_cons_iff.mp hrest
    have hvalue : w.value = some row := Option.mem_toList.mp hadds
    refine ⟨pre, w, post, rfl, hvalue, fun w' hw' hsame => ?_⟩
    have hkey : key row = w.key := hkeys w (by simp) row hvalue
    have hno := hspared _ (List.mem_map_of_mem hw')
    simp [event, hkey, hsame] at hno
  · intro ⟨pre, w, post, hsplit, hvalue, hpost⟩
    subst hsplit
    refine ⟨pre.map (event key), event key w, post.map (event key), by simp,
      Option.mem_toList.mpr hvalue, fun e he => ?_⟩
    obtain ⟨w', hw', rfl⟩ := List.mem_map.mp he
    have hkey : key row = w.key := hkeys w (by simp) row hvalue
    simp only [event, hkey, decide_eq_false_iff_not]
    exact (hpost w' hw').symm

theorem nodup_latest (key : ρ → κ) (hkeys : ∀ w ∈ ws, ∀ row ∈ w.value, key row = w.key) :
    (latest ws).Nodup := by
  apply List.Nodup.filterMap _ (List.nodup_dedup _)
  -- a row shows the key that it is found under
  have hshows : ∀ k row, row ∈ ((ws.filter fun w => w.key = k).argmax Write.version).bind
      Write.value → key row = k := by
    intro k row hrow
    obtain ⟨w, hw, hvalue⟩ := Option.bind_eq_some_iff.mp hrow
    obtain ⟨hmem, hkey⟩ := List.mem_filter.mp (List.argmax_mem hw)
    rw [hkeys w hmem row hvalue]
    exact of_decide_eq_true hkey
  intro k k' row hk hk'
  rw [← hshows k row hk, hshows k' row hk']

theorem nodup_survivors_event (key : ρ → κ)
    (hkeys : ∀ w ∈ ws, ∀ row ∈ w.value, key row = w.key) :
    (survivors (ws.map (event key))).Nodup := by
  induction ws using List.reverseRecOn with
  | nil => exact List.nodup_nil
  | append_singleton ws w ih =>
    have ih := ih fun w' hw' => hkeys w' (List.mem_append_left _ hw')
    rw [List.map_append, List.map_singleton, survivors_append_singleton, Event.after]
    refine List.nodup_append.mpr ⟨ih.filter _, ?_, fun a ha b hb => ?_⟩
    · cases hw : w.value <;> simp [event, hw]
    · rintro rfl
      have hkey : key a = w.key := hkeys w (by simp) a (Option.mem_toList.mp hb)
      have hkept := (List.mem_filter.mp ha).2
      simp [event, hkey] at hkept

/-- What is latest is what the writes leave one after the other. -/
theorem latest_perm (hrising : Rising ws) (key : ρ → κ)
    (hkeys : ∀ w ∈ ws, ∀ row ∈ w.value, key row = w.key) :
    (latest ws).Perm (survivors (ws.map (event key))) := by
  rw [List.perm_ext_iff_of_nodup (nodup_latest key hkeys) (nodup_survivors_event key hkeys)]
  intro row
  rw [mem_latest hrising, mem_survivors_event key hkeys]
  constructor
  · intro ⟨w, hw, hvalue, hmax⟩
    obtain ⟨pre, post, rfl⟩ := List.append_of_mem hw
    refine ⟨pre, w, post, rfl, hvalue, fun w' hw' hsame => ?_⟩
    have hlater := (List.pairwise_cons.mp (List.pairwise_append.mp hrising).2.1).1 w' hw' hsame.symm
    have hle := hmax w' (by simp [hw']) hsame
    omega
  · intro ⟨pre, w, post, hsplit, hvalue, hpost⟩
    subst hsplit
    refine ⟨w, by simp, hvalue, fun w' hw' hsame => ?_⟩
    cases List.mem_append.mp hw' with
    | inl hpre =>
      have hlt := (List.pairwise_append.mp hrising).2.2 w' hpre w List.mem_cons_self hsame
      omega
    | inr hrest =>
      cases List.mem_cons.mp hrest with
      | inl heq => rw [heq]
      | inr hmem => exact absurd hsame (hpost w' hmem)

end Write

end Lib
