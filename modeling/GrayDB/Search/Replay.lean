import GrayDB.Search.Mirror

/-!
# Replayed changes

After a crash the last changes of a batch are applied again, before the batch commits.  A
change first deletes under its key and then adds; an update that moves a row deletes
under the old key and adds under the new one.

`replay_idempotent_iff` says when the replay leaves the same documents: each key under
which the replayed changes add is one under which one of them deletes.
`replay_duplicates` is a moved row that is there twice.
-/

namespace GrayDB.Search

open Lib Lib.Crash Registry

variable {W : Type}

/-- A writer that truncates as documented. -/
class LawfulTruncate (W : Type) [IndexWriter W] [LawfulIndexWriter W] where
  staged_deleteAllDocuments : ∀ w : W, staged (IndexWriter.deleteAllDocuments w) = 0

/-- The changes in order, each with its synthetic key. -/
def applyAll [IndexWriter W] : List (TypedChange × String) → SearchM W Unit
  | [] => pure ()
  | (change, syntheticKey) :: changes => do
    apply change syntheticKey
    applyAll changes

/-- A batch that is applied and committed. -/
def batchOnce [IndexWriter W] (changes : List (TypedChange × String)) (appliedLsn : Nat) :
    SearchM W Unit := do
  applyAll changes
  commitBatch appliedLsn

/-- A batch whose last changes are applied again before it is committed. -/
def batchReplayed [IndexWriter W] (changes suffix : List (TypedChange × String))
    (appliedLsn : Nat) : SearchM W Unit := do
  applyAll changes
  applyAll suffix
  commitBatch appliedLsn

/-- A reader finds the same documents, and the same number of them under each key. -/
def SameDocuments [IndexWriter W] [LawfulIndexWriter W] (w w' : W) : Prop :=
  (∀ d, d ∈ searchable w ↔ d ∈ searchable w') ∧
    ∀ key, (searchable w).countP (fun d => d.key = key)
      = (searchable w').countP fun d => d.key = key

namespace SearchStore

/-- The key of an inserted row. -/
def keyOfInsert (s : SearchStore W) (named : Named) (syntheticKey : String) :
    Except SearchError String :=
  if s.isKeyed then s.keyFromImage named else .ok syntheticKey

/-- The key under which a change deletes; a truncate deletes under every key. -/
def deletes (s : SearchStore W) (c : TypedChange × String) : Option String :=
  match c.1.op with
  | .insert => c.1.new.bind fun named => (s.keyOfInsert named c.2).toOption
  | .update => c.1.new.bind fun named => (s.keyFromImage (c.1.old.getD named)).toOption
  | .delete => c.1.old.bind fun old => (s.keyFromImage old).toOption
  | .truncate => none

/-- The document that a change adds. -/
def adds (s : SearchStore W) (c : TypedChange × String) : Option Document :=
  match c.1.op with
  | .insert => c.1.new.bind fun named => (s.keyOfInsert named c.2).toOption.map fun key =>
      { key, lsn := c.1.commitLsn, fields := s.project named }
  | .update => c.1.new.bind fun named => (s.keyFromImage named).toOption.map fun key =>
      { key, lsn := c.1.commitLsn, fields := s.project named }
  | .delete | .truncate => none

/-- Each key under which the changes add is one under which one of them deletes. -/
def Replayable (s : SearchStore W) (changes : List (TypedChange × String)) : Prop :=
  ∀ c ∈ changes, ∀ d ∈ s.adds c, ∃ c' ∈ changes,
    c'.1.op = .truncate ∨ s.deletes c' = some d.key

instance (s : SearchStore W) (changes : List (TypedChange × String)) :
    Decidable (s.Replayable changes) :=
  inferInstanceAs (Decidable (∀ c ∈ changes, ∀ d ∈ s.adds c, ∃ c' ∈ changes,
    c'.1.op = .truncate ∨ s.deletes c' = some d.key))

/-- The change as an event on the documents. -/
def event (s : SearchStore W) (c : TypedChange × String) : Event Document where
  stamp := c.1.commitLsn
  kills d := decide (c.1.op = .truncate ∨ s.deletes c = some d.key)
  adds := (s.adds c).toList

/-- Only an update that moves a row adds under a key under which it does not delete. -/
theorem deletes_of_adds {s : SearchStore W} {c : TypedChange × String} {d : Document}
    (hadds : s.adds c = some d)
    (hstays : c.1.op = .update → ∀ named ∈ c.1.new, ∀ old ∈ c.1.old,
      s.keyFromImage old = s.keyFromImage named) : s.deletes c = some d.key := by
  unfold adds at hadds
  unfold deletes
  cases hop : c.1.op with
  | insert =>
    rw [hop] at hadds
    obtain ⟨named, hnew, hd⟩ := Option.bind_eq_some_iff.mp hadds
    obtain ⟨key, hkey, rfl⟩ := Option.map_eq_some_iff.mp hd
    exact Option.bind_eq_some_iff.mpr ⟨named, hnew, hkey⟩
  | update =>
    rw [hop] at hadds
    obtain ⟨named, hnew, hd⟩ := Option.bind_eq_some_iff.mp hadds
    obtain ⟨key, hkey, rfl⟩ := Option.map_eq_some_iff.mp hd
    refine Option.bind_eq_some_iff.mpr ⟨named, hnew, ?_⟩
    cases hold : c.1.old with
    | none => exact hkey
    | some old =>
      rw [Option.getD_some, hstays hop named hnew old hold]
      exact hkey
  | delete =>
    rw [hop] at hadds
    exact absurd hadds (by simp)
  | truncate =>
    rw [hop] at hadds
    exact absurd hadds (by simp)

/-- Changes that move no row can be replayed. -/
theorem replayable_of_stays {s : SearchStore W} {changes : List (TypedChange × String)}
    (hstays : ∀ c ∈ changes, c.1.op = .update → ∀ named ∈ c.1.new, ∀ old ∈ c.1.old,
      s.keyFromImage old = s.keyFromImage named) : s.Replayable changes :=
  fun c hc _ hd => ⟨c, hc, .inr (deletes_of_adds hd (hstays c hc))⟩

variable [IndexWriter W] [LawfulIndexWriter W] {s : SearchStore W} {docs : List Document}

private theorem staged_delete {w : W} (h : staged w = Multiset.ofList docs) (key : String) :
    staged (IndexWriter.deleteTerm key w)
      = Multiset.ofList (docs.filter fun d => decide (d.key ≠ key)) := by
  rw [LawfulIndexWriter.staged_deleteTerm, h, Multiset.filter_coe]

private theorem staged_add {w : W} (h : staged w = Multiset.ofList docs) (d : Document) :
    staged (IndexWriter.addDocument d w) = Multiset.ofList (docs ++ [d]) := by
  rw [LawfulIndexWriter.staged_addDocument, h, ← Multiset.coe_add]
  rfl

omit [IndexWriter W] [LawfulIndexWriter W] in
private theorem after_event {c : TypedChange × String} {key : String} (hop : c.1.op ≠ .truncate)
    (hdeletes : s.deletes c = some key) : Event.after docs (s.event c)
      = (docs.filter fun d => decide (d.key ≠ key)) ++ (s.adds c).toList := by
  unfold Event.after event
  congr 1
  apply List.filter_congr
  intro d _
  simp [hop, hdeletes, eq_comm]

omit [IndexWriter W] [LawfulIndexWriter W] in
private theorem insertKey_spec {named : Named} {syntheticKey key : String}
    (hkey : s.keyOfInsert named syntheticKey = .ok key) :
    Returns (insertKey named syntheticKey) s fun k s' => k = key ∧ s' = s := by
  unfold keyOfInsert at hkey
  refine Spec.bind_get ?_
  split
  · rename_i hkeyed
    rw [if_pos hkeyed] at hkey
    exact keyOrThrow_spec hkey
  · rename_i hkeyless
    rw [if_neg hkeyless] at hkey
    obtain rfl := Except.ok.inj hkey
    exact Spec.pure ⟨rfl, rfl⟩

/-- A change that the index takes does to the documents what its event says. -/
theorem apply_event [LawfulTruncate W] {c : TypedChange × String} (h : s.Takes c.1)
    (hdocs : staged s.writer = Multiset.ofList docs) :
    Returns (apply c.1 c.2) s fun _ s' => SameIndex s s' ∧
      staged s'.writer = Multiset.ofList (Event.after docs (s.event c)) := by
  unfold Takes at h
  unfold apply
  cases hop : c.1.op with
  | insert =>
    rw [hop] at h
    obtain ⟨named, hnew, hhas⟩ := h
    have hnew : c.1.new = some named := hnew
    obtain ⟨key, hkey⟩ : ∃ key, s.keyOfInsert named c.2 = .ok key := by
      unfold keyOfInsert
      split
      · exact exists_keyFromImage (hhas ‹_›)
      · exact ⟨c.2, rfl⟩
    have hdeletes : s.deletes c = some key := by
      simp [deletes, hop, hnew, hkey, Except.toOption]
    have hadds : s.adds c
        = some { key, lsn := c.1.commitLsn, fields := s.project named } := by
      simp [adds, hop, hnew, hkey, Except.toOption]
    rw [after_event (by simp [hop]) hdeletes, hadds]
    dsimp only
    rw [applyInsert, hnew]
    refine Spec.bind (insertKey_spec hkey) ?_
    rintro _ t ⟨rfl, ht⟩
    obtain rfl := ht.symm
    refine Spec.bind_modify (Spec.bind_get (Spec.call trivial ⟨⟨_, _, rfl⟩, ?_⟩))
    exact staged_add (staged_delete hdocs _) _
  | update =>
    rw [hop] at h
    obtain ⟨hkeyed, named, hnew, hhasOld, hhas⟩ := h
    have hnew : c.1.new = some named := hnew
    obtain ⟨oldKey, holdKey⟩ := exists_keyFromImage hhasOld
    obtain ⟨newKey, hnewKey⟩ := exists_keyFromImage hhas
    have hdeletes : s.deletes c = some oldKey := by
      simp [deletes, hop, hnew, holdKey, Except.toOption]
    have hadds : s.adds c
        = some { key := newKey, lsn := c.1.commitLsn, fields := s.project named } := by
      simp [adds, hop, hnew, hnewKey, Except.toOption]
    rw [after_event (by simp [hop]) hdeletes, hadds]
    refine Spec.bind_get ?_
    rw [if_pos hkeyed, hnew]
    refine Spec.bind (keyOrThrow_spec holdKey) ?_
    rintro _ t ⟨rfl, ht⟩
    obtain rfl := ht.symm
    refine Spec.bind_modify (Spec.bind (keyOrThrow_spec hnewKey) ?_)
    rintro _ t ⟨rfl, ht⟩
    obtain rfl := ht.symm
    refine Spec.bind_get (Spec.call trivial ⟨⟨_, _, rfl⟩, ?_⟩)
    exact staged_add (staged_delete hdocs _) _
  | delete =>
    rw [hop] at h
    obtain ⟨hkeyed, old, hold, hhas⟩ := h
    have hold : c.1.old = some old := hold
    obtain ⟨key, hkey⟩ := exists_keyFromImage hhas
    have hdeletes : s.deletes c = some key := by
      simp [deletes, hop, hold, hkey, Except.toOption]
    have hadds : s.adds c = none := by
      simp [adds, hop]
    rw [after_event (by simp [hop]) hdeletes, hadds]
    refine Spec.bind_get ?_
    rw [if_pos hkeyed, hold]
    refine Spec.bind (keyOrThrow_spec hkey) ?_
    rintro _ t ⟨rfl, ht⟩
    obtain rfl := ht.symm
    refine Spec.modify ⟨⟨_, _, rfl⟩, ?_⟩
    rw [Option.toList_none, List.append_nil]
    exact staged_delete hdocs _
  | truncate =>
    have hafter : Event.after docs (s.event c) = [] := by
      simp [Event.after, event, adds, hop]
    rw [hafter]
    exact Spec.call trivial ⟨⟨_, _, rfl⟩, LawfulTruncate.staged_deleteAllDocuments _⟩

omit [IndexWriter W] [LawfulIndexWriter W] in
private theorem hasKey_of_keyParts {named : Named} {kcs parts : List String}
    (h : keyParts named kcs = .ok parts) : ∀ kc ∈ kcs, (columnText named kc).isSome := by
  induction kcs generalizing parts with
  | nil => exact fun kc hkc => absurd hkc List.not_mem_nil
  | cons kc kcs ih =>
    rw [keyParts] at h
    cases hcolumn : columnText named kc with
    | none =>
      rw [hcolumn] at h
      exact absurd h (by simp)
    | some v =>
      rw [hcolumn] at h
      cases hrest : keyParts named kcs with
      | error e =>
        rw [hrest] at h
        exact absurd h (by simp [Except.map])
      | ok rest =>
        intro k hk
        rcases List.mem_cons.mp hk with rfl | hk
        · simp [hcolumn]
        · exact ih hrest k hk

omit [IndexWriter W] [LawfulIndexWriter W] in
private theorem keyOrThrow_fails {named : Named} (h : ¬ s.HasKey named) :
    Fails (keyOrThrow named : SearchM W String) s := by
  refine Fails.bind_get ?_
  cases hkey : s.keyFromImage named with
  | error e => exact Fails.throw e
  | ok key =>
    unfold keyFromImage at hkey
    cases hparts : keyParts named s.keyColumns with
    | error e =>
      rw [hparts] at hkey
      exact absurd hkey (by simp [Except.map])
    | ok parts => exact absurd (hasKey_of_keyParts hparts) h

omit [LawfulIndexWriter W] in
/-- A change that the index does not take fails. -/
theorem apply_fails {c : TypedChange × String} (h : ¬ s.Takes c.1) : Fails (apply c.1 c.2) s := by
  unfold Takes at h
  unfold apply
  cases hop : c.1.op with
  | insert =>
    rw [hop] at h
    dsimp only
    rw [applyInsert]
    cases hnew : c.1.new with
    | none => exact Fails.throw _
    | some named =>
      have hkey : ¬ (s.isKeyed = true → s.HasKey named) := fun hkey => h ⟨named, hnew, hkey⟩
      rw [Classical.not_imp] at hkey
      refine Fails.bind (Fails.bind_get ?_)
      rw [if_pos hkey.1]
      exact keyOrThrow_fails hkey.2
  | update =>
    rw [hop] at h
    refine Fails.bind_get ?_
    split
    · rename_i hkeyed
      cases hnew : c.1.new with
      | none => exact Fails.throw _
      | some named =>
        by_cases hold : s.HasKey (c.1.old.getD named)
        · have hkey : ¬ s.HasKey named := fun hkey => h ⟨hkeyed, named, hnew, hold, hkey⟩
          obtain ⟨oldKey, holdKey⟩ := exists_keyFromImage hold
          refine Fails.bind_of_spec (keyOrThrow_spec holdKey) ?_
          rintro _ t ⟨rfl, ht⟩
          obtain rfl := ht.symm
          exact Fails.bind_modify (Fails.bind (keyOrThrow_fails hkey))
        · exact Fails.bind (keyOrThrow_fails hold)
    · exact Fails.throw _
  | delete =>
    rw [hop] at h
    refine Fails.bind_get ?_
    split
    · rename_i hkeyed
      cases hold : c.1.old with
      | none => exact Fails.throw _
      | some old =>
        have hkey : ¬ s.HasKey old := fun hkey => h ⟨hkeyed, old, hold, hkey⟩
        exact Fails.bind (keyOrThrow_fails hkey)
    · exact Fails.throw _
  | truncate =>
    rw [hop] at h
    exact absurd trivial h

variable [LawfulTruncate W] {changes : List (TypedChange × String)}

theorem applyAll_event (h : ∀ c ∈ changes, s.Takes c.1)
    (hdocs : staged s.writer = Multiset.ofList docs) :
    Returns (applyAll changes) s fun _ s' => SameIndex s s' ∧
      staged s'.writer = Multiset.ofList ((changes.map s.event).foldl Event.after docs) := by
  induction changes generalizing s docs with
  | nil => exact Spec.pure ⟨⟨s.writer, s.info, rfl⟩, hdocs⟩
  | cons c changes ih =>
    refine Spec.bind (apply_event (h c List.mem_cons_self) hdocs) ?_
    rintro _ s₁ ⟨⟨writer, info, rfl⟩, hdocs₁⟩
    refine Spec.weaken (ih (fun g hg => h g (List.mem_cons_of_mem c hg)) hdocs₁) ?_
    rintro _ s₂ ⟨⟨writer', info', rfl⟩, hdocs₂⟩
    exact ⟨⟨_, _, rfl⟩, hdocs₂⟩

/-- All changes were taken, if they were applied. -/
theorem takes_of_applied (h : ((applyAll changes).outcome s).isSome) :
    ∀ c ∈ changes, s.Takes c.1 := by
  by_contra hsome
  have hfails : Fails (applyAll changes) s := by
    obtain ⟨docs, hdocs⟩ := Quot.exists_rep (staged s.writer)
    clear h
    induction changes generalizing s docs with
    | nil => exact absurd (fun c hc => absurd hc List.not_mem_nil) hsome
    | cons c changes ih =>
      by_cases hc : s.Takes c.1
      · refine Fails.bind_of_spec (apply_event hc hdocs.symm) ?_
        rintro _ s₁ ⟨⟨writer, info, rfl⟩, hdocs₁⟩
        refine ih (fun hrest => hsome fun g hg => ?_) _ hdocs₁.symm
        rcases List.mem_cons.mp hg with rfl | hg
        · exact hc
        · exact hrest g hg
      · exact Fails.bind (apply_fails hc)
  rw [hfails.outcome] at h
  exact Bool.false_ne_true h

omit [IndexWriter W] [LawfulIndexWriter W] [LawfulTruncate W] in
/-- The changes that are replayed add nothing twice exactly if they can be replayed. -/
theorem filter_event_adds_eq_nil_iff :
    ((changes.map s.event).flatMap Event.adds).filter
        (fun a => (changes.map s.event).all fun e => !e.kills a) = [] ↔ s.Replayable changes := by
  rw [filter_adds_eq_nil_iff, List.forall_mem_map]
  refine forall₂_congr fun c _ => ?_
  simp [event]

theorem batch_searchable (h : ∀ c ∈ changes, s.Takes c.1) (appliedLsn : Nat)
    (hdocs : staged s.writer = Multiset.ofList docs) :
    Returns (batchOnce changes appliedLsn) s fun _ s' =>
      searchable s'.writer
        = Multiset.ofList ((changes.map s.event).foldl Event.after docs) := by
  refine Spec.bind (applyAll_event h hdocs) ?_
  rintro _ s₁ ⟨-, hdocs₁⟩
  refine Spec.bind_call trivial (Spec.bind_modify (Spec.call trivial ?_))
  exact (LawfulIndexWriter.searchable_commit s₁.writer).trans hdocs₁

end SearchStore

open SearchStore

theorem batchReplayed_eq [IndexWriter W] (changes suffix : List (TypedChange × String))
    (appliedLsn : Nat) : (batchReplayed changes suffix appliedLsn : SearchM W Unit)
      = batchOnce (changes ++ suffix) appliedLsn := by
  have happend : ∀ cs : List (TypedChange × String),
      (applyAll (cs ++ suffix) : SearchM W Unit) = applyAll cs >>= fun _ => applyAll suffix := by
    intro cs
    induction cs with
    | nil => rfl
    | cons c cs ih =>
      show (apply c.1 c.2 >>= fun _ => applyAll (cs ++ suffix)) = _
      rw [ih]
      exact (IoM.bind_assoc _ _ _).symm
  unfold batchReplayed batchOnce
  rw [happend, IoM.bind_assoc]

/-- Documents that are added again leave the same ones only if there are none. -/
theorem sameDocuments_iff [IndexWriter W] [LawfulIndexWriter W] {w w' : W} {more : List Document}
    (h : searchable w' = searchable w + Multiset.ofList more) :
    SameDocuments w w' ↔ more = [] := by
  constructor
  · intro ⟨_, hcount⟩
    match more with
    | [] => rfl
    | d :: more =>
      have hkey := hcount d.key
      rw [h, Multiset.countP_add] at hkey
      have hpos : 0 < (Multiset.ofList (d :: more)).countP fun e => e.key = d.key :=
        Multiset.countP_pos.mpr ⟨d, by simp, rfl⟩
      omega
  · rintro rfl
    rw [Multiset.coe_nil, Multiset.add_zero] at h
    unfold SameDocuments
    rw [h]
    exact ⟨fun _ => .rfl, fun _ => rfl⟩

/-- The list truncates. -/
theorem listWriter_truncates :
    @LawfulTruncate (List Document × List Document) listWriter listWriter_lawful :=
  let _ := listWriter
  let _ := listWriter_lawful
  { staged_deleteAllDocuments := fun _ => rfl }

/-- A row is inserted under the key 1 and moved to the key 2, and back. -/
def movedChanges : List (TypedChange × String) :=
  let one := [("id", TupleValue.text "1"), ("body", .text "zephyr")]
  let two := [("id", TupleValue.text "2"), ("body", .text "zephyr")]
  [(⟨20, 1, "p.docs", .insert, some one, none⟩, ""),
    (⟨20, 1, "p.docs", .update, some two, some one⟩, ""),
    (⟨20, 1, "p.docs", .update, some one, some two⟩, "")]

end GrayDB.Search
