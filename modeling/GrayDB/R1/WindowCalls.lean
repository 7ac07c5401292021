import GrayDB.R1.WindowRetries

/-!
# The requests of a window, one by one

Other clients read the tables while `apply_window` makes its requests, and a request can fail.
What they find is the server behind some of the requests: `applyWindow_fallible` says so of each
moment of a call, with any failures.
-/

namespace GrayDB.R1.ClickHouseSink

open Lib Lib.Crash Registry

/-! ## The requests of a call, one by one -/

section Calls

variable {db : ClickHouse} {w : World} {plan : List Outcome}

/-- The server has taken the first requests. -/
def Began (db : ClickHouse) (requests : List (ClickHouse → ClickHouse)) (w : World) : Prop :=
  ∃ n, w.db = db.after (requests.take n)

theorem Began.of_made {made : List (ClickHouse → ClickHouse)} (h : w.db = db.after made)
    (rest : List (ClickHouse → ClickHouse)) : Began db (made ++ rest) w :=
  ⟨made.length, by rw [List.take_left, h]⟩

theorem postInsert_fallible {made : List (ClickHouse → ClickHouse)} (h : w.db = db.after made)
    (f : ClickHouse → ClickHouse) (rest : List (ClickHouse → ClickHouse)) :
    Fallible (postInsert f) w plan (Began db (made ++ f :: rest))
      (fun _ w' _ => w'.db = db.after (made ++ [f])) (Began db (made ++ f :: rest)) := by
  have hmade : f w.db = db.after (made ++ [f]) := by
    rw [ClickHouse.after_append, ← h]
    rfl
  have hbegan : ∀ w' : World, w'.db = f w.db → Began db (made ++ f :: rest) w' := by
    intro w' hw'
    have hw' := Began.of_made (hw'.trans hmade) rest
    rwa [List.append_assoc] at hw'
  refine Fallible.call (fun _ => ⟨hbegan _ rfl, hmade⟩) fun k _ => ?_
  split
  · exact ⟨.of_made h _, .of_made h _⟩
  · exact ⟨hbegan _ rfl, hbegan _ rfl⟩

theorem insertGroups_fallible (token : String → List VersionRow → String)
    (groups : List (String × List VersionRow)) (rest : List (ClickHouse → ClickHouse)) :
    ∀ (made : List (ClickHouse → ClickHouse)) {w : World} (plan : List Outcome),
      w.db = db.after made →
      Fallible (insertGroups token groups) w plan
        (Began db (made ++ (groupRequests token groups ++ rest)))
        (fun _ w' _ => w'.db = db.after (made ++ groupRequests token groups))
        (Began db (made ++ (groupRequests token groups ++ rest))) := by
  induction groups with
  | nil =>
    intro made w plan h
    apply Fallible.pure
    rw [groupRequests, List.map_nil, List.append_nil]
    exact h
  | cons g groups ih =>
    intro made w plan h
    refine Fallible.bind (postInsert_fallible h _ (groupRequests token groups ++ rest)) ?_
    intro _ w₁ plan₁ h₁
    have hrest := ih _ plan₁ h₁
    simp only [List.append_assoc, List.singleton_append] at hrest
    exact hrest

variable [SinkText]

/-- At each moment of a call the server has taken its first requests, and when the call returns
all of them. -/
theorem applyWindow_fallible (commits : List CdcCommit) (w : World) (plan : List Outcome) :
    Fallible (applyWindow commits) w plan (Began w.db (requests commits))
      (fun last w' _ => commits ≠ [] ∧ last = lastLsn commits ∧ (∀ c ∈ commits, c.Renders) ∧
        w'.db = w.db.after (requests commits))
      (Began w.db (requests commits)) := by
  have hnothing : ∀ fs, Began w.db fs w := fun fs => ⟨0, rfl⟩
  by_cases hne : commits = []
  · rw [hne]
    exact Fallible.throw (hnothing _)
  obtain ⟨first, last, hfirst, hlast, hfirstLsn, hlastLsn⟩ := head?_getLast? hne
  unfold applyWindow
  simp only [hfirst, hlast]
  cases hrows : commits.mapM fun c => versionRows .windowLsn c.lsn false c.changes with
  | error e =>
    exact Fallible.bind (Q := fun _ _ _ => False) (Fallible.throw (hnothing _))
      fun _ _ _ hfalse => hfalse.elim
  | ok rows =>
    have hrenders := renders_of_mapM hrows
    rw [mapM_windowRows_of_renders hrenders] at hrows
    obtain rfl := Except.ok.inj hrows
    have hrequests := requests_eq commits hlastLsn
    refine Fallible.bind (Q := fun rows w₀ _ => rows = commits.map CdcCommit.windowRows ∧ w₀ = w)
      (Fallible.pure ⟨rfl, rfl⟩) ?_
    rintro rows w₀ plan₀ ⟨hrows, hw₀⟩
    rw [hrows, hw₀, hrequests]
    refine Fallible.bind (insertGroups_fallible _ _ [_] [] _ rfl) ?_
    intro _ w₁ plan₁ h₁
    refine Fallible.bind (postInsert_fallible h₁ _ []) ?_
    intro _ w₂ plan₂ h₂
    have hbegan : Began w.db (requests commits) w₂ := by
      have h₂ := Began.of_made h₂ []
      rwa [List.append_nil, List.nil_append, ← hrequests] at h₂
    rw [← hrequests]
    refine Fallible.bind (Q := fun _ w' _ => w' = w₂) ?_ ?_
    · refine Fallible.bind (Q := fun _ w' _ => w' = w₂)
        (Fallible.call (fun _ => ⟨hbegan, rfl⟩) fun k _ => ⟨hbegan, hbegan⟩) ?_
      exact fun _ w' _ hw' => Fallible.bind_get (Fallible.pure hw')
    · intro verified w₃ plan₃ hw₃
      rw [hw₃]
      by_cases hcount : verified = commits.length
      · rw [if_pos hcount]
        refine Fallible.pure ⟨hne, hlastLsn.symm, hrenders, ?_⟩
        rw [h₂, hrequests]
        rfl
      · rw [if_neg hcount]
        exact Fallible.throw hbegan

end Calls

end GrayDB.R1.ClickHouseSink
