import GrayDB.Lib.Guarded
import GrayDB.R1.VersionRows

/-!
# Exactly-once application

`apply` is repeated until it returns, and any request of an attempt can fail before it takes
effect or behind it.  What makes the repetition harmless are the tokens of the inserts; but
the token of `apply` is made of the operation hash alone, while a transaction is known by
its LSN.

`exactly_once` says what this costs: the system applies each transaction exactly once if and
only if no two transactions have the same hash.

* `tableAfter` and `appliedAfter` are the tables behind a list of transactions, with the
  tokens, whatever the hashes are.  `Between done t` is the server while `t` is attempted:
  each table is the one behind `done`, or the one behind `done ++ [t]`.
* An attempt that returns has seen the marker of its transaction, and then the hash is new
  (`hash_of_marker`).  Hence no transaction is acknowledged too early, and a run that ends
  has stored everything.
* A hash that was used before keeps the marker away for ever: the attempts never return.
-/

namespace GrayDB.R1.ClickHouseSink

open Lib Lib.Crash Registry

/-! ## The system -/

/-- The transactions that are still to be applied, in order, and the server. -/
structure ApplySys where
  queue : List CdcCommit
  world : World := {}

/-- One attempt at the first transaction, with the outcomes of its requests.  The next one is
tried only when it has returned. -/
def ApplySys.attempt (plan : List Outcome) (s : ApplySys) : Option ApplySys :=
  match s.queue with
  | [] => none
  | t :: rest =>
    match apply t.lsn t.hash t.changes ⟨s.world, plan, []⟩ with
    | (.ok _, r) => some { queue := rest, world := r.state }
    | (.error _, r) => some { queue := t :: rest, world := r.state }

def ApplySys.step (plan : List Outcome) (s s' : ApplySys) : Prop := s.attempt plan = some s'

/-- The rows of a transaction. -/
def CdcCommit.rows (t : CdcCommit) : List (String × VersionRow) :=
  (versionRows .transactionLsn t.lsn false t.changes).toOption.getD []

def CdcCommit.marker (t : CdcCommit) : Marker where
  operationSha256 := t.hash
  sourceLsn := t.lsn

/-- The hexadecimal digits of a hash. -/
def IsDigest (hash : String) : Prop :=
  hash ≠ "" ∧ ∀ c ∈ hash.toList, c ∈ "0123456789abcdef".toList

/-- A transaction of changes that the sink can write, with a digest. -/
structure Appliable (t : CdcCommit) : Prop where
  digest : IsDigest t.hash
  nonempty : t.changes ≠ []
  rows : versionRows .transactionLsn t.lsn false t.changes = .ok t.rows

/-- The marker and all rows of the transaction are stored. -/
def StoredIn (db : ClickHouse) (t : CdcCommit) : Prop :=
  t.marker ∈ db.applied.rows ∧ ∀ raw ∈ rawNames, ∀ r ∈ rowsOf raw t.rows, r ∈ (db.raw raw).rows

/-- The system applies each transaction exactly once. -/
structure ExactlyOnce (txns : List CdcCommit) : Prop where
  /-- Only what is stored is acknowledged. -/
  acknowledged : ∀ s, Run ApplySys.step { queue := txns } s → ∀ a ∈ s.world.acknowledged,
    ∃ t ∈ txns, t.lsn = a.1 ∧ StoredIn a.2 t
  /-- The repetition ends: an attempt without failures returns. -/
  returns : ∀ s, Run ApplySys.step { queue := txns } s → ∀ t rest, s.queue = t :: rest →
    ∃ outcome w, (apply t.lsn t.hash t.changes).outcome s.world = some (outcome, w)
  /-- In the end the tables are those of applying each transaction once. -/
  final : ∀ s, Run ApplySys.step { queue := txns } s → s.queue = [] →
    s.world.db.applied.rows = txns.map CdcCommit.marker ∧
    ∀ raw ∈ rawNames, (s.world.db.raw raw).rows = txns.flatMap fun t => rowsOf raw t.rows

/-! ## Tokens -/

theorem isDigest_char {c : Char} (h : c ∈ "0123456789abcdef".toList) :
    c.isWhitespace = false ∧ c ≠ '\'' := by
  have hall : ∀ c ∈ "0123456789abcdef".toList, c.isWhitespace = false ∧ c ≠ '\'' :=
    List.all_iff_forall_prop.mp (by decide +kernel)
  exact hall c h

theorem IsDigest.legible {hash : String} (h : IsDigest hash) : Legible hash :=
  ⟨trim_of_plain fun c hc => (isDigest_char (h.2 c hc)).1, h.1⟩

theorem IsDigest.markerToken {hash : String} (h : IsDigest hash) :
    markerToken hash = rowToken hash appliedTransactions := by
  have hplain : Columnar.replaceChar '\'' "''" hash = hash := by
    unfold Columnar.replaceChar
    have hflat : (hash.toList.flatMap fun x => if x = '\'' then "''".toList else [x])
        = hash.toList.flatMap fun x => [x] :=
      List.flatMap_congr fun c hc => if_neg (isDigest_char (h.2 c hc)).2
    rw [hflat, List.flatMap_singleton', String.ofList_toList]
  unfold ClickHouseSink.markerToken
  rw [hplain]
  rfl

theorem rowToken_injective {hash hash' raw : String} (h : rowToken hash raw = rowToken hash' raw) :
    hash = hash' := by
  have hlist := congrArg String.toList h
  unfold rowToken at hlist
  simp only [String.toList_append] at hlist
  rw [List.append_assoc, List.append_assoc] at hlist
  exact String.toList_inj.mp (List.append_cancel_right hlist)

/-! ## The tables behind a list of transactions -/

/-- The insert of a transaction into a raw table, if there is one. -/
def CdcCommit.inserts (raw : String) (t : CdcCommit) : List (String × List VersionRow) :=
  if rowsOf raw t.rows = [] then [] else [(rowToken t.hash raw, rowsOf raw t.rows)]

def tableAfter (raw : String) (ts : List CdcCommit) : Tokened String VersionRow :=
  Tokened.received (ts.flatMap (CdcCommit.inserts raw))

def appliedAfter (ts : List CdcCommit) : Tokened String Marker :=
  Tokened.received (ts.map fun t => (markerToken t.hash, [t.marker]))

variable {raw : String} {done : List CdcCommit} {t : CdcCommit}

theorem tableAfter_of_none (h : rowsOf raw t.rows = []) :
    tableAfter raw (done ++ [t]) = tableAfter raw done := by
  unfold tableAfter
  rw [List.flatMap_append, List.flatMap_singleton, CdcCommit.inserts, if_pos h, List.append_nil]

theorem tableAfter_of_some (h : rowsOf raw t.rows ≠ []) : tableAfter raw (done ++ [t])
    = (tableAfter raw done).insert true (rowToken t.hash raw) (rowsOf raw t.rows) := by
  unfold tableAfter
  rw [List.flatMap_append, List.flatMap_singleton, CdcCommit.inserts, if_neg h,
    Tokened.received_append_singleton]

theorem appliedAfter_append (done : List CdcCommit) (t : CdcCommit) : appliedAfter (done ++ [t])
    = (appliedAfter done).insert true (markerToken t.hash) [t.marker] := by
  unfold appliedAfter
  rw [List.map_append, List.map_singleton, Tokened.received_append_singleton]

/-- A marker is that of one of the transactions. -/
theorem mem_appliedAfter {m : Marker} (h : m ∈ (appliedAfter done).rows) :
    ∃ t ∈ done, m = t.marker := by
  obtain ⟨i, hi, hm⟩ := Tokened.mem_rows_received h
  obtain ⟨t, ht, rfl⟩ := List.mem_map.mp hi
  exact ⟨t, ht, List.mem_singleton.mp hm⟩

/-- No marker behind `done` has the LSN of another transaction. -/
theorem no_marker (hlsn : ∀ x ∈ done, x.lsn ≠ t.lsn) :
    ∀ m ∈ (appliedAfter done).rows, m.sourceLsn ≠ t.lsn := by
  intro m hm
  obtain ⟨x, hx, rfl⟩ := mem_appliedAfter hm
  exact hlsn x hx

/-- If the marker of a transaction is stored, its hash was not used before. -/
theorem hash_of_marker (hlsn : ∀ x ∈ done, x.lsn ≠ t.lsn)
    (h : ∃ m ∈ (appliedAfter (done ++ [t])).rows, m.sourceLsn = t.lsn) :
    t.hash ∉ done.map CdcCommit.hash := by
  intro hmem
  have htoken : markerToken t.hash ∈ (appliedAfter done).tokens := by
    obtain ⟨x, hx, hhash⟩ := List.mem_map.mp hmem
    unfold appliedAfter
    rw [Tokened.mem_tokens_received, List.map_map]
    exact List.mem_map.mpr ⟨x, hx, by rw [Function.comp_apply, hhash]⟩
  obtain ⟨m, hm, heq⟩ := h
  rw [appliedAfter_append, Tokened.insert_of_mem htoken] at hm
  exact no_marker hlsn m hm heq

/-- With different hashes, every row is stored. -/
theorem rows_tableAfter (hnodup : (done.map CdcCommit.hash).Nodup) :
    (tableAfter raw done).rows = done.flatMap fun t => rowsOf raw t.rows := by
  unfold tableAfter
  rw [Tokened.rows_received, List.flatMap_assoc]
  · apply List.flatMap_congr
    intro t _
    unfold CdcCommit.inserts
    by_cases hnil : rowsOf raw t.rows = []
    · rw [if_pos hnil, hnil]
      rfl
    · rw [if_neg hnil]
      simp
  · rw [List.map_flatMap]
    induction done with
    | nil => exact List.nodup_nil
    | cons t done ih =>
      rw [List.map_cons, List.nodup_cons] at hnodup
      obtain ⟨hnew, hnodup⟩ := hnodup
      rw [List.flatMap_cons]
      refine List.nodup_append.mpr ⟨?_, ih hnodup, ?_⟩
      · unfold CdcCommit.inserts
        split <;> simp
      · intro a ha b hb hab
        obtain ⟨x, hx, hbx⟩ := List.mem_flatMap.mp hb
        have htoken : ∀ y : CdcCommit, ∀ c ∈ (y.inserts raw).map Prod.fst, c = rowToken y.hash raw := by
          intro y c hc
          unfold CdcCommit.inserts at hc
          split at hc
          · exact absurd hc List.not_mem_nil
          · simpa using hc
        apply hnew
        have heq : rowToken t.hash raw = rowToken x.hash raw := by
          rw [← htoken t a ha, ← htoken x b hbx, hab]
        exact rowToken_injective heq ▸ List.mem_map_of_mem hx

/-- With different hashes, every marker is stored. -/
theorem rows_appliedAfter (hnodup : (done.map CdcCommit.hash).Nodup)
    (hdigest : ∀ t ∈ done, IsDigest t.hash) :
    (appliedAfter done).rows = done.map CdcCommit.marker := by
  unfold appliedAfter
  rw [Tokened.rows_received, List.flatMap_map]
  · exact List.map_eq_flatMap.symm
  · rw [List.map_map]
    have hmap : done.map (Prod.fst ∘ fun t => (markerToken t.hash, [t.marker]))
        = (done.map CdcCommit.hash).map fun hash => rowToken hash appliedTransactions := by
      rw [List.map_map]
      exact List.map_congr_left fun t ht => (hdigest t ht).markerToken
    rw [hmap]
    exact hnodup.map fun _ _ h => rowToken_injective h

/-! ## The server while a transaction is attempted -/

/-- Each raw table is the one behind `done ++ [t]`, or it is the one behind `done` and among
those that are still to be written. -/
structure Mid (done : List CdcCommit) (t : CdcCommit) (groups : List (String × List VersionRow))
    (db : ClickHouse) : Prop where
  looks : db.deduplicates = true
  raw : ∀ raw ∈ rawNames, db.raw raw = tableAfter raw (done ++ [t]) ∨
    (db.raw raw = tableAfter raw done ∧ raw ∈ groups.map Prod.fst)

/-- The server behind the transactions. -/
structure After (done : List CdcCommit) (db : ClickHouse) : Prop where
  looks : db.deduplicates = true
  raw : ∀ raw ∈ rawNames, db.raw raw = tableAfter raw done
  applied : db.applied = appliedAfter done

/-- The marker is written behind the rows. -/
structure Between (done : List CdcCommit) (t : CdcCommit) (db : ClickHouse) : Prop where
  mid : Mid done t (rowsByTable t.rows) db
  applied : db.applied = appliedAfter done ∨ After (done ++ [t]) db

variable {db : ClickHouse} {groups : List (String × List VersionRow)}

theorem Mid.later {g : String × List VersionRow} (h : Mid done t groups db) :
    Mid done t (g :: groups) db where
  looks := h.looks
  raw := fun raw hraw => (h.raw raw hraw).imp_right fun ⟨heq, hmem⟩ =>
    ⟨heq, List.mem_cons_of_mem _ hmem⟩

theorem Mid.all (h : Mid done t [] db) (groups : List (String × List VersionRow)) :
    Mid done t groups db where
  looks := h.looks
  raw := fun raw hraw => .inl ((h.raw raw hraw).resolve_right fun ⟨_, hmem⟩ => nomatch hmem)

theorem After.mid (h : After (done ++ [t]) db) (groups : List (String × List VersionRow)) :
    Mid done t groups db where
  looks := h.looks
  raw := fun raw hraw => .inl (h.raw raw hraw)

theorem Mid.after (h : Mid done t [] db) (happlied : db.applied = appliedAfter (done ++ [t])) :
    After (done ++ [t]) db where
  looks := h.looks
  raw := fun raw hraw => (h.raw raw hraw).resolve_right fun ⟨_, hmem⟩ => nomatch hmem
  applied := happlied

theorem mem_rowsByTable (hraw : raw ∈ rawNames) (h : rowsOf raw t.rows ≠ []) :
    raw ∈ (rowsByTable t.rows).map Prod.fst := by
  refine List.mem_map.mpr ⟨(raw, rowsOf raw t.rows), List.mem_filter.mpr ⟨?_, ?_⟩, rfl⟩
  · exact List.mem_map_of_mem hraw
  · simpa using h

theorem of_mem_rowsByTable {rows : List (String × VersionRow)} {g : String × List VersionRow}
    (h : g ∈ rowsByTable rows) : g.2 = rowsOf g.1 rows ∧ g.2 ≠ [] := by
  obtain ⟨hmem, hne⟩ := List.mem_filter.mp h
  obtain ⟨raw, -, rfl⟩ := List.mem_map.mp hmem
  exact ⟨rfl, by simpa using hne⟩

/-- The next transaction has not been attempted. -/
theorem After.between (h : After done db) (t : CdcCommit) : Between done t db where
  mid := {
    looks := h.looks
    raw := fun raw hraw => by
      by_cases hnil : rowsOf raw t.rows = []
      · exact .inl ((h.raw raw hraw).trans (tableAfter_of_none hnil).symm)
      · exact .inr ⟨h.raw raw hraw, mem_rowsByTable hraw hnil⟩ }
  applied := .inl h.applied

/-- An insert of the transaction, whether it is the first one or a repetition. -/
theorem Mid.insertRows {g : String × List VersionRow} (h : Mid done t (g :: groups) db)
    (hrows : g.2 = rowsOf g.1 t.rows) (hne : g.2 ≠ []) :
    Mid done t groups (db.insertRows g.1 (rowToken t.hash g.1) g.2) where
  looks := h.looks
  raw := fun raw hraw => by
    show (if raw = g.1 then _ else _) = _ ∨ (if raw = g.1 then _ else _) = _ ∧ _
    by_cases heq : raw = g.1
    · subst heq
      rw [if_pos rfl, h.looks]
      have hafter : tableAfter g.1 (done ++ [t])
          = (tableAfter g.1 done).insert true (rowToken t.hash g.1) g.2 := by
        rw [hrows, tableAfter_of_some (hrows ▸ hne)]
      cases h.raw g.1 hraw with
      | inl hnew =>
        rw [hnew, hafter, Tokened.insert_insert]
        exact .inl rfl
      | inr hold =>
        rw [hold.1]
        exact .inl hafter.symm
    · rw [if_neg heq]
      exact (h.raw raw hraw).imp_right fun ⟨hold, hmem⟩ =>
        ⟨hold, (List.mem_cons.mp hmem).resolve_left heq⟩

/-- The insert of the marker. -/
theorem Mid.insertMarkers (h : Mid done t [] db)
    (happlied : db.applied = appliedAfter done ∨ After (done ++ [t]) db) :
    After (done ++ [t]) (db.insertMarkers (markerToken t.hash) [t.marker]) := by
  have hmid : Mid done t [] (db.insertMarkers (markerToken t.hash) [t.marker]) := ⟨h.looks, h.raw⟩
  apply hmid.after
  show db.applied.insert db.deduplicates (markerToken t.hash) [t.marker] = _
  rw [h.looks, appliedAfter_append]
  cases happlied with
  | inl hold => rw [hold]
  | inr hnew => rw [hnew.applied, appliedAfter_append, Tokened.insert_insert]

/-- The marker of the transaction is there. -/
def Marked (t : CdcCommit) (db : ClickHouse) : Prop := ∃ m ∈ db.applied.rows, m.sourceLsn = t.lsn

/-- Only the transaction itself brings its marker. -/
theorem Between.of_marked (h : Between done t db) (hlsn : ∀ x ∈ done, x.lsn ≠ t.lsn)
    (hmarked : Marked t db) : After (done ++ [t]) db := by
  refine h.applied.resolve_left fun hold => ?_
  obtain ⟨m, hm, heq⟩ := hmarked
  exact no_marker hlsn m (hold ▸ hm) heq

/-! ## One attempt -/

/-- What a program leaves behind, whatever its requests do. -/
abbrev Attempts {α : Type} (m : SinkM α) (w : World) (plan : List Outcome) (Q : α → World → Prop)
    (E : World → Prop) : Prop :=
  Fallible m w plan (fun _ => True) (fun a w' _ => Q a w') E

variable {w : World} {plan : List Outcome}

theorem postInsert_attempts {f : ClickHouse → ClickHouse} {Q : Unit → World → Prop}
    {E : World → Prop} (hdone : Q () { w with db := f w.db }) (hbefore : E w)
    (hbehind : E { w with db := f w.db }) : Attempts (postInsert f) w plan Q E := by
  refine Fallible.call (fun _ => ⟨trivial, hdone⟩) fun k _ => ⟨trivial, ?_⟩
  show E (if k = 0 then w else _)
  split
  · exact hbefore
  · exact hbehind

theorem postSelect_attempts {α : Type} {f : ClickHouse → α} {Q : α → World → Prop}
    {E : World → Prop} (hdone : Q (f w.db) w) (hfailed : E w) :
    Attempts (postSelect f) w plan Q E := by
  refine Fallible.bind (Q := fun _ w' _ => w' = w)
    (Fallible.call (fun _ => ⟨trivial, rfl⟩) fun _ _ => ⟨trivial, hfailed⟩) ?_
  intro _ w' plan' hw'
  subst hw'
  exact Fallible.bind_get (Fallible.pure hdone)

/-- The answer is yes only if there is a marker. -/
theorem transactionIsApplied_attempts {lsn : Nat} {hash : String} {Q : Bool → World → Prop}
    {E : World → Prop} (hyes : (∃ m ∈ w.db.applied.rows, m.sourceLsn = lsn) → Q true w)
    (hno : Q false w) (hfailed : E w) : Attempts (transactionIsApplied lsn hash) w plan Q E := by
  apply Fallible.bind (postSelect_attempts (Q := fun lines w' =>
    lines = w.db.hashesAt lsn ∧ w' = w) ⟨rfl, rfl⟩ hfailed)
  intro lines w' plan' ⟨hlines, hw'⟩
  subst hw'
  split
  · exact Fallible.pure hno
  · rename_i recorded hrecorded
    split
    · apply Fallible.pure
      apply hyes
      have hne : lines ≠ [] := by
        intro hnil
        rw [hnil] at hrecorded
        exact nomatch hrecorded
      rw [hlines] at hne
      obtain ⟨hash', hmem⟩ := List.exists_mem_of_ne_nil _ hne
      obtain ⟨m, hm, -⟩ := List.mem_map.mp hmem
      exact ⟨m, (List.mem_filter.mp hm).1, of_decide_eq_true (List.mem_filter.mp hm).2⟩
    · exact Fallible.throw hfailed
  · exact Fallible.throw hfailed

/-- A repetition changes nothing that is already written. -/
theorem Mid.repeatRows {g : String × List VersionRow} (h : Mid done t groups db)
    (hrows : g.2 = rowsOf g.1 t.rows) (hne : g.2 ≠ []) :
    Mid done t groups (db.insertRows g.1 (rowToken t.hash g.1) g.2) :=
  h.later.insertRows hrows hne

theorem insertGroups_attempts (hgroups : ∀ g ∈ groups, g.2 = rowsOf g.1 t.rows ∧ g.2 ≠ [])
    (hmid : Mid done t groups w.db) :
    Attempts (insertGroups (fun raw _ => rowToken t.hash raw) groups) w plan
      (fun _ w' => w'.db.applied = w.db.applied ∧ w'.acknowledged = w.acknowledged ∧
        Mid done t [] w'.db)
      (fun w' => w'.db.applied = w.db.applied ∧ w'.acknowledged = w.acknowledged ∧
        ∀ gs, Mid done t gs w.db → Mid done t gs w'.db) := by
  induction groups generalizing w plan with
  | nil => exact Fallible.pure ⟨rfl, rfl, hmid⟩
  | cons g groups ih =>
    obtain ⟨hrows, hne⟩ := hgroups g List.mem_cons_self
    apply Fallible.bind (postInsert_attempts (Q := fun _ w' => w'.db.applied = w.db.applied ∧
      w'.acknowledged = w.acknowledged ∧ Mid done t groups w'.db ∧
        ∀ gs, Mid done t gs w.db → Mid done t gs w'.db)
      ⟨rfl, rfl, hmid.insertRows hrows hne, fun _ h => h.repeatRows hrows hne⟩
      ⟨rfl, rfl, fun _ h => h⟩ ⟨rfl, rfl, fun _ h => h.repeatRows hrows hne⟩)
    intro _ w₁ plan₁ ⟨happlied, hack, hmid₁, hkeep⟩
    apply (ih (fun g' hg' => hgroups g' (List.mem_cons_of_mem _ hg')) hmid₁).mono
      (fun _ w' _ ⟨happlied', hack', hall⟩ => ⟨happlied'.trans happlied, hack'.trans hack, hall⟩)
      (fun w' ⟨happlied', hack', hkeep'⟩ => ⟨happlied'.trans happlied, hack'.trans hack,
        fun gs h => hkeep' gs (hkeep gs h)⟩)

theorem insertVersionRows_eq (ht : Appliable t) :
    insertVersionRows t.lsn t.hash t.changes false
      = insertGroups (fun raw _ => rowToken t.hash raw) (rowsByTable t.rows) := by
  unfold insertVersionRows
  rw [if_neg ht.nonempty, ht.rows]
  rfl

/-- A transaction that is applied, or an attempt that has failed. -/
theorem applyTransaction_attempts (ht : Appliable t) (hlsn : ∀ x ∈ done, x.lsn ≠ t.lsn)
    (h : Between done t w.db) :
    Attempts (applyTransaction t.lsn t.hash t.changes) w plan
      (fun _ w' => w'.acknowledged = w.acknowledged ∧ After (done ++ [t]) w'.db ∧ Marked t w'.db)
      (fun w' => w'.acknowledged = w.acknowledged ∧ Between done t w'.db) := by
  unfold applyTransaction
  apply Fallible.bind (transactionIsApplied_attempts (Q := fun b w' => w' = w ∧
    (b = true → Marked t w.db)) (fun hmarked => ⟨rfl, fun _ => hmarked⟩)
    ⟨rfl, fun h => nomatch h⟩ ⟨rfl, h⟩)
  intro b w₀ plan₀ ⟨hw₀, hmarked⟩
  subst hw₀
  cases b with
  | true => exact Fallible.pure ⟨rfl, h.of_marked hlsn (hmarked rfl), hmarked rfl⟩
  | false =>
    rw [if_neg (by decide), insertVersionRows_eq ht]
    have hmarker : ∀ w' : World, w'.db.applied = w₀.db.applied → Mid done t [] w'.db →
        w'.db.applied = appliedAfter done ∨ After (done ++ [t]) w'.db := fun w' happlied hmid =>
      h.applied.imp happlied.trans fun hafter => hmid.after (happlied.trans hafter.applied)
    -- the rows
    apply Fallible.bind (Q := fun _ w' _ => w'.db.applied = w₀.db.applied ∧
      w'.acknowledged = w₀.acknowledged ∧ Mid done t [] w'.db)
    · refine (insertGroups_attempts (fun g hg => of_mem_rowsByTable hg) h.mid).mono
        (fun _ _ _ h => h) fun w' ⟨happlied, hack, hkeep⟩ => ⟨hack, hkeep _ h.mid, ?_⟩
      exact h.applied.imp happlied.trans fun hafter =>
        (hkeep [] (hafter.mid [])).after (happlied.trans hafter.applied)
    intro _ w₁ plan₁ ⟨happlied, hack, hmid⟩
    have hafter := hmid.insertMarkers (hmarker w₁ happlied hmid)
    -- the marker
    apply Fallible.bind (postInsert_attempts (Q := fun _ w' =>
      w'.acknowledged = w₀.acknowledged ∧ After (done ++ [t]) w'.db) ⟨hack, hafter⟩
      ⟨hack, hmid.all _, hmarker w₁ happlied hmid⟩ ⟨hack, hafter.mid _, .inr hafter⟩)
    intro _ w₂ plan₂ ⟨hack₂, hafter₂⟩
    have hstuck : w₂.acknowledged = w₀.acknowledged ∧ Between done t w₂.db :=
      ⟨hack₂, hafter₂.mid _, .inr hafter₂⟩
    -- the verification
    apply Fallible.bind (transactionIsApplied_attempts (Q := fun b w' => w' = w₂ ∧
      (b = true → Marked t w₂.db)) (fun hmarked => ⟨rfl, fun _ => hmarked⟩)
      ⟨rfl, fun h => nomatch h⟩ hstuck)
    intro b w₃ plan₃ ⟨hw₃, hmarked₃⟩
    subst hw₃
    cases b with
    | true => exact Fallible.pure ⟨hack₂, hafter₂, hmarked₃ rfl⟩
    | false => exact Fallible.throw hstuck

theorem apply_attempts (ht : Appliable t) (hlsn : ∀ x ∈ done, x.lsn ≠ t.lsn)
    (h : Between done t w.db) :
    Attempts (apply t.lsn t.hash t.changes) w plan
      (fun _ w' => w'.acknowledged = w.acknowledged ++ [(t.lsn, w'.db)] ∧
        After (done ++ [t]) w'.db ∧ Marked t w'.db)
      (fun w' => Between done t w'.db ∧ (w'.acknowledged = w.acknowledged ∨
        (w'.acknowledged = w.acknowledged ++ [(t.lsn, w'.db)] ∧ After (done ++ [t]) w'.db ∧
          Marked t w'.db))) := by
  unfold apply
  apply Fallible.bind ((applyTransaction_attempts ht hlsn h).mono (fun _ _ _ h => h)
    fun w' ⟨hack, hbetween⟩ => ⟨hbetween, .inl hack⟩)
  intro outcome w₁ plan₁ ⟨hack, hafter, hmarked⟩
  have hdone : ∀ b : List (Nat × ClickHouse), b = w₁.acknowledged ++ [(t.lsn, w₁.db)] →
      b = w.acknowledged ++ [(t.lsn, w₁.db)] := fun _ hb => hack ▸ hb
  refine Fallible.bind (Q := fun _ w' _ => w'.acknowledged = w.acknowledged ++ [(t.lsn, w'.db)] ∧
    After (done ++ [t]) w'.db ∧ Marked t w'.db)
    (Fallible.call (fun _ => ⟨trivial, hdone _ rfl, hafter, hmarked⟩) fun _ _ => ⟨trivial, ?_⟩) ?_
  · exact ⟨⟨hafter.mid _, .inr hafter⟩, .inr ⟨hdone _ rfl, hafter, hmarked⟩⟩
  · intro _ w₂ plan₂ hw₂
    exact Fallible.pure hw₂

/-- What is acknowledged is stored, whatever the hashes of the other transactions are. -/
theorem After.storedIn (h : After (done ++ [t]) db) (hlsn : ∀ x ∈ done, x.lsn ≠ t.lsn)
    (hnodup : (done.map CdcCommit.hash).Nodup) (hdigest : ∀ x ∈ done ++ [t], IsDigest x.hash)
    (hmarked : Marked t db) : StoredIn db t ∧ ((done ++ [t]).map CdcCommit.hash).Nodup := by
  have hnew : t.hash ∉ done.map CdcCommit.hash := hash_of_marker hlsn (h.applied ▸ hmarked)
  have hnodup' : ((done ++ [t]).map CdcCommit.hash).Nodup := by
    rw [List.map_append, List.map_singleton, List.nodup_append]
    exact ⟨hnodup, List.nodup_singleton _, fun a ha b hb hab =>
      hnew (by rwa [← List.mem_singleton.mp hb, ← hab])⟩
  refine ⟨⟨?_, fun raw hraw r hr => ?_⟩, hnodup'⟩
  · rw [h.applied, rows_appliedAfter hnodup' hdigest]
    exact List.mem_map_of_mem (List.mem_append_right _ List.mem_cons_self)
  · rw [h.raw raw hraw, rows_tableAfter hnodup']
    exact List.mem_flatMap.mpr ⟨t, List.mem_append_right _ List.mem_cons_self, hr⟩

/-! ## An attempt without failures -/

theorem hashesAt_before (hlsn : ∀ x ∈ done, x.lsn ≠ t.lsn) (h : db.applied = appliedAfter done) :
    db.hashesAt t.lsn = [] := by
  unfold ClickHouse.hashesAt
  rw [h, List.filter_eq_nil_iff.mpr, List.map_nil]
  intro m hm
  simpa using no_marker hlsn m hm

theorem After.hashesAt (h : After (done ++ [t]) db) (hlsn : ∀ x ∈ done, x.lsn ≠ t.lsn)
    (hnodup : ((done ++ [t]).map CdcCommit.hash).Nodup)
    (hdigest : ∀ x ∈ done ++ [t], IsDigest x.hash) : db.hashesAt t.lsn = [t.hash] := by
  have hold : (done.map CdcCommit.marker).filter (fun m => m.sourceLsn = t.lsn) = [] := by
    apply List.filter_eq_nil_iff.mpr
    intro m hm
    obtain ⟨x, hx, rfl⟩ := List.mem_map.mp hm
    simp only [decide_eq_true_eq]
    exact hlsn x hx
  have hself : [t.marker].filter (fun m => m.sourceLsn = t.lsn) = [t.marker] :=
    List.filter_cons_of_pos (decide_eq_true rfl)
  unfold ClickHouse.hashesAt
  rw [h.applied, rows_appliedAfter hnodup hdigest, List.map_append, List.filter_append, hold,
    List.nil_append, List.map_singleton, hself]
  rfl

theorem insertGroups_completes (hgroups : ∀ g ∈ groups, g.2 = rowsOf g.1 t.rows ∧ g.2 ≠ [])
    (hmid : Mid done t groups w.db) :
    Returns (insertGroups (fun raw _ => rowToken t.hash raw) groups) w fun _ w' =>
      w'.db.applied = w.db.applied ∧ Mid done t [] w'.db := by
  induction groups generalizing w with
  | nil => exact Spec.pure ⟨rfl, hmid⟩
  | cons g groups ih =>
    obtain ⟨hrows, hne⟩ := hgroups g List.mem_cons_self
    apply Spec.bind (postInsert_returns _)
    intro _ w₁ hw₁
    have hmid₁ : Mid done t groups w₁.db := hw₁ ▸ hmid.insertRows hrows hne
    refine (ih (fun g' hg' => hgroups g' (List.mem_cons_of_mem _ hg')) hmid₁).weaken ?_
    intro _ w' ⟨happlied, hall⟩
    refine ⟨happlied.trans ?_, hall⟩
    rw [hw₁]
    rfl

/-- With a hash of its own, the transaction is applied. -/
theorem apply_returns (ht : Appliable t) (hlsn : ∀ x ∈ done, x.lsn ≠ t.lsn)
    (hnodup : ((done ++ [t]).map CdcCommit.hash).Nodup)
    (hdigest : ∀ x ∈ done ++ [t], IsDigest x.hash) (h : Between done t w.db) :
    Returns (apply t.lsn t.hash t.changes) w fun _ _ => True := by
  have hack : ∀ (o : ApplyOutcome) (w' : World), Returns (do
      acknowledgeApplied t.lsn
      return o) w' fun _ _ => True := fun _ _ =>
    Spec.bind (Q := fun _ _ => True) (Spec.call trivial trivial) fun _ _ _ => Spec.pure trivial
  refine Spec.bind (Q := fun _ _ => True) ?_ fun o w' _ => hack o w'
  unfold applyTransaction
  cases h.applied with
  | inr hafter =>
    apply Spec.bind (transactionIsApplied_one ht.digest.legible
      (hafter.hashesAt hlsn hnodup hdigest))
    intro b w₀ ⟨hb, _⟩
    subst hb
    exact Spec.pure trivial
  | inl hbefore =>
    apply Spec.bind (transactionIsApplied_none _ (hashesAt_before hlsn hbefore))
    intro b w₀ ⟨hb, hw₀⟩
    subst hb hw₀
    rw [if_neg (by decide), insertVersionRows_eq ht]
    apply Spec.bind (insertGroups_completes (fun g hg => of_mem_rowsByTable hg) h.mid)
    intro _ w₁ ⟨happlied, hmid⟩
    apply Spec.bind (postInsert_returns _)
    intro _ w₂ hw₂
    have hafter : After (done ++ [t]) w₂.db :=
      hw₂ ▸ hmid.insertMarkers (.inl (happlied.trans hbefore))
    apply Spec.bind (transactionIsApplied_one ht.digest.legible
      (hafter.hashesAt hlsn hnodup hdigest))
    intro b w₃ ⟨hb, _⟩
    subst hb
    exact Spec.pure trivial

/-! ## Whole runs -/

/-- What every run keeps. -/
structure ApplyInv (txns : List CdcCommit) (s : ApplySys) : Prop where
  acknowledged : ∀ a ∈ s.world.acknowledged, ∃ t ∈ txns, t.lsn = a.1 ∧ StoredIn a.2 t
  queue : ∃ done, txns = done ++ s.queue ∧ (done.map CdcCommit.hash).Nodup ∧
    (s.queue = [] → After done s.world.db) ∧
    ∀ t rest, s.queue = t :: rest → Between done t s.world.db

section Runs

variable {txns : List CdcCommit} {s s' : ApplySys}

theorem After.applyInv (h : After done s.world.db) (hsplit : txns = done ++ s.queue)
    (hnodup : (done.map CdcCommit.hash).Nodup)
    (hack : ∀ a ∈ s.world.acknowledged, ∃ t ∈ txns, t.lsn = a.1 ∧ StoredIn a.2 t) :
    ApplyInv txns s where
  acknowledged := hack
  queue := ⟨done, hsplit, hnodup, fun _ => h, fun t _ _ => h.between t⟩

theorem applyInv_start (txns : List CdcCommit) : ApplyInv txns { queue := txns } := by
  have hafter : After [] ({ queue := txns } : ApplySys).world.db :=
    { looks := rfl, raw := fun _ _ => rfl, applied := rfl }
  apply hafter.applyInv
  · rfl
  · exact List.nodup_nil
  · intro a ha
    exact nomatch ha

/-- What is known of the first transaction of the queue. -/
theorem queue_head {done rest : List CdcCommit} (hsplit : txns = done ++ t :: rest)
    (hlsn : (txns.map CdcCommit.lsn).Nodup) (happliable : ∀ t ∈ txns, Appliable t) :
    Appliable t ∧ (∀ x ∈ done, x.lsn ≠ t.lsn) ∧ ∀ x ∈ done ++ [t], IsDigest x.hash := by
  subst hsplit
  refine ⟨happliable t (by simp), fun x hx heq => ?_, fun x hx => (happliable x ?_).digest⟩
  · rw [List.map_append, List.nodup_append] at hlsn
    exact hlsn.2.2 x.lsn (List.mem_map_of_mem hx) t.lsn (by simp) heq
  · cases List.mem_append.mp hx with
    | inl hx => exact List.mem_append_left _ hx
    | inr hx => exact List.mem_append_right _ (by simp [List.mem_singleton.mp hx])

/-- One attempt keeps the invariant. -/
theorem ApplyInv.step (hlsn : (txns.map CdcCommit.lsn).Nodup) (happliable : ∀ t ∈ txns, Appliable t)
    {plan : List Outcome} (hstep : ApplySys.step plan s s') (h : ApplyInv txns s) :
    ApplyInv txns s' := by
  obtain ⟨hack, done, hsplit, hnodup, -, hbetween⟩ := h
  obtain ⟨queue, world⟩ := s
  cases queue with
  | nil => exact nomatch hstep
  | cons t rest =>
    obtain ⟨ht, hlsns, hdigest⟩ := queue_head hsplit hlsn happliable
    have hb := hbetween t rest rfl
    have hstored : ∀ w' : World, w'.acknowledged = world.acknowledged ++ [(t.lsn, w'.db)] →
        After (done ++ [t]) w'.db → Marked t w'.db →
        ∀ a ∈ w'.acknowledged, ∃ t ∈ txns, t.lsn = a.1 ∧ StoredIn a.2 t := by
      intro w' hacks hafter hmarked a ha
      rw [hacks] at ha
      cases List.mem_append.mp ha with
      | inl hold => exact hack a hold
      | inr hnew =>
        rw [List.mem_singleton.mp hnew]
        exact ⟨t, by simp [hsplit], rfl, (hafter.storedIn hlsns hnodup hdigest hmarked).1⟩
    obtain ⟨w', plan', new, -, hend⟩ := (apply_attempts ht hlsns hb : Attempts _ _ plan _ _) []
    unfold ApplySys.step ApplySys.attempt at hstep
    simp only [] at hstep
    rcases hend with ⟨o, hrun, hacks, hafter, hmarked⟩ | ⟨e, hrun, hbetween', hacks⟩
    · rw [hrun] at hstep
      obtain rfl := Option.some.inj hstep
      apply hafter.applyInv
      · rw [hsplit, List.append_assoc]
        rfl
      · exact (hafter.storedIn hlsns hnodup hdigest hmarked).2
      · exact hstored w' hacks hafter hmarked
    · rw [hrun] at hstep
      obtain rfl := Option.some.inj hstep
      refine ⟨?_, done, hsplit, hnodup, (fun h => nomatch h), fun t' rest' heq => ?_⟩
      · rcases hacks with hsame | ⟨hacks, hafter, hmarked⟩
        · rw [hsame]
          exact hack
        · exact hstored w' hacks hafter hmarked
      · obtain ⟨rfl, rfl⟩ := List.cons.inj heq
        exact hbetween'

theorem ApplyInv.run (hlsn : (txns.map CdcCommit.lsn).Nodup) (happliable : ∀ t ∈ txns, Appliable t)
    (h : Run ApplySys.step { queue := txns } s) : ApplyInv txns s :=
  GuardedRun.invariant (fun _ _ _ _ hstep hinv => hinv.step hlsn happliable hstep) h
    (applyInv_start txns)

/-- If attempts without failures always return, a run can be brought to its end. -/
theorem exists_final (h : ExactlyOnce txns) :
    ∀ {queue : List CdcCommit} {s : ApplySys}, s.queue = queue →
      Run ApplySys.step { queue := txns } s →
      ∃ s', Run ApplySys.step { queue := txns } s' ∧ s'.queue = []
  | [], s, hqueue, hrun => ⟨s, hrun, hqueue⟩
  | t :: rest, s, hqueue, hrun => by
    obtain ⟨o, w, houtcome⟩ := h.returns s hrun t rest hqueue
    have hstep : ApplySys.step [] s { queue := rest, world := w } := by
      unfold IoM.outcome IoM.exec at houtcome
      unfold ApplySys.step ApplySys.attempt
      rw [hqueue]
      simp only []
      cases happly : apply t.lsn t.hash t.changes ⟨s.world, [], []⟩ with
      | mk res r =>
        rw [happly] at houtcome
        cases res with
        | error e => exact nomatch houtcome
        | ok a =>
          obtain ⟨-, rfl⟩ := Prod.mk.inj (Option.some.inj houtcome)
          rfl
    exact exists_final h rfl (hrun.tail trivial hstep)

/-- Two transactions with one hash are never both applied. -/
theorem nodup_of_exactlyOnce (hlsn : (txns.map CdcCommit.lsn).Nodup)
    (happliable : ∀ t ∈ txns, Appliable t) (h : ExactlyOnce txns) :
    (txns.map CdcCommit.hash).Nodup := by
  obtain ⟨s, hrun, hqueue⟩ := exists_final h rfl (GuardedRun.refl _)
  obtain ⟨-, done, hsplit, hnodup, -, -⟩ := ApplyInv.run hlsn happliable hrun
  rw [hqueue, List.append_nil] at hsplit
  exact hsplit ▸ hnodup

/-- Each transaction is applied exactly once if and only if no two of them have the same
hash. -/
theorem exactly_once (hlsn : (txns.map CdcCommit.lsn).Nodup)
    (happliable : ∀ t ∈ txns, Appliable t) :
    ExactlyOnce txns ↔ (txns.map CdcCommit.hash).Nodup := by
  refine ⟨nodup_of_exactlyOnce hlsn happliable, fun hnodup => ?_⟩
  constructor
  · intro s hrun
    exact (ApplyInv.run hlsn happliable hrun).acknowledged
  · intro s hrun t rest hqueue
    obtain ⟨-, done, hsplit, -, -, hbetween⟩ := ApplyInv.run hlsn happliable hrun
    rw [hqueue] at hsplit
    obtain ⟨ht, hlsns, hdigest⟩ := queue_head hsplit hlsn happliable
    have hnodup' : ((done ++ [t]).map CdcCommit.hash).Nodup := by
      have hbegin : done ++ [t] <+: txns := ⟨rest, by rw [hsplit, List.append_assoc]; rfl⟩
      exact hnodup.sublist (hbegin.sublist.map _)
    obtain ⟨o, w, hrun, -, -⟩ :=
      (apply_returns ht hlsns hnodup' hdigest (hbetween t rest hqueue)).exec
    exact ⟨o, w, hrun⟩
  · intro s hrun hqueue
    obtain ⟨-, done, hsplit, -, hafter, -⟩ := ApplyInv.run hlsn happliable hrun
    rw [hqueue, List.append_nil] at hsplit
    subst hsplit
    have hafter := hafter hqueue
    refine ⟨?_, fun raw hraw => ?_⟩
    · rw [hafter.applied, rows_appliedAfter hnodup fun t ht => (happliable t ht).digest]
    · rw [hafter.raw raw hraw, rows_tableAfter hnodup]

end Runs

/-! Two transactions that make the same update of a customer. -/

def customerUpdate (lsn : Nat) : TypedChange where
  commitLsn := lsn
  xid := 7
  table := "r1.customers"
  op := .update
  new := some [("customer_id", .text "4"), ("tenant_id", .text "1"), ("segment", .text "smb"),
    ("email_domain", .text "example.com"), ("profile", .text "[]"),
    ("created_at", .text "2024-01-01 00:00:00+00")]
  old := none

def customerCommit (lsn : Nat) (hash : String) : CdcCommit where
  lsn
  hash
  changes := [customerUpdate lsn]

private theorem appliable_customerCommit {lsn : Nat} {hash : String} (h : IsDigest hash) :
    Appliable (customerCommit lsn hash) where
  digest := h
  nonempty := List.cons_ne_nil _ _
  rows := by
    have hlsn : ¬(lsn ≠ 0 ∧ lsn ≠ lsn) := fun h => h.2 rfl
    unfold CdcCommit.rows customerCommit versionRows
    simp only [List.zipIdx_cons, List.zipIdx_nil, List.mapM_cons, List.mapM_nil, versionRow,
      customerUpdate, if_neg hlsn]
    rfl

/-- The digest of some operations. -/
def someDigest : String := "4f53cda18c2baa0c0354bb5f9a3ecbe5ed12ab4d8e11ba873c2f11161202b945"

/-- The digest of others. -/
def otherDigest : String := "74234e98afe7498fb5daf1f36ac2d78acc339464f950703b8c019892f982b90b"

theorem isDigest_some : IsDigest someDigest :=
  ⟨by decide, List.all_iff_forall_prop.mp (by decide +kernel)⟩

theorem isDigest_other : IsDigest otherDigest :=
  ⟨by decide, List.all_iff_forall_prop.mp (by decide +kernel)⟩

theorem exactly_once_two_hashes :
    ExactlyOnce [customerCommit 500 someDigest, customerCommit 600 otherDigest] ↔
      ([customerCommit 500 someDigest, customerCommit 600 otherDigest].map CdcCommit.hash).Nodup := by
  apply exactly_once (by decide)
  intro t ht
  simp only [List.mem_cons, List.not_mem_nil, or_false] at ht
  obtain rfl | rfl := ht
  · exact appliable_customerCommit isDigest_some
  · exact appliable_customerCommit isDigest_other

/-- With one hash for both, the second transaction is never applied. -/
theorem not_exactly_once :
    ([customerCommit 500 someDigest, customerCommit 600 someDigest].map CdcCommit.lsn).Nodup ∧
    (∀ t ∈ [customerCommit 500 someDigest, customerCommit 600 someDigest], Appliable t) ∧
    ¬ExactlyOnce [customerCommit 500 someDigest, customerCommit 600 someDigest] := by
  have hlsn : ([customerCommit 500 someDigest, customerCommit 600 someDigest].map
    CdcCommit.lsn).Nodup := by decide
  have happliable : ∀ t ∈ [customerCommit 500 someDigest, customerCommit 600 someDigest],
      Appliable t := by
    intro t ht
    simp only [List.mem_cons, List.not_mem_nil, or_false] at ht
    obtain rfl | rfl := ht
    · exact appliable_customerCommit isDigest_some
    · exact appliable_customerCommit isDigest_some
  refine ⟨hlsn, happliable, fun h => ?_⟩
  have hnodup := nodup_of_exactlyOnce hlsn happliable h
  simp [customerCommit] at hnodup

end GrayDB.R1.ClickHouseSink
