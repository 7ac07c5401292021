import GrayDB.Registry.SchemaAt

/-!
# The schema of a name

The registry keeps one name for each relation, the one of its last Relation message.
`schema_for_table` takes the first relation in OID order that bears the name now, and asks
it for its version at the LSN.

* `recordedVersions` is what a history of messages records: the versions, each with the
  name that its relation had then.
* `placeAt_recordAll` says which of them `schema_at` answers with.
* `schema_for_table_iff` is the result.  The answer is the version recorded last under the
  name exactly if no other relation and no other name has come in between.
-/

set_option linter.dupNamespace false

namespace GrayDB.Registry

open Lib Log

/-- What a reference to a version says: the relation, and the place among its versions. -/
structure VersionRef where
  relid : Nat
  index : Nat
  deriving DecidableEq, Repr

namespace Registry

/-- The version behind a reference. -/
def version (r : Registry) (ref : VersionRef) : Option SchemaVersion :=
  (r.versions ref.relid)[ref.index]?

/-- The version that `schema_at` refers to. -/
def placeAt (r : Registry) (relid lsn : Nat) : Option VersionRef :=
  ((r.versions relid).zipIdx.reverse.find? fun v => decide (v.1.validFromLsn ≤ lsn)).map
    fun v => ⟨relid, v.2⟩

/-- The first relation, in the order of the OIDs, that bears the name. -/
def named (r : Registry) (qualified : String) : Option Nat :=
  ((r.tables.entries.filter fun e => e.2.qualifiedName = qualified).map Sigma.fst).min?

/-- The schema in force at a commit LSN, by qualified table name. -/
def schemaForTable (r : Registry) (qualified : String) (lsn : Nat) : Option VersionRef :=
  (r.named qualified).bind fun relid => r.placeAt relid lsn

/-- `schema_at` answers with the version that `placeAt` refers to. -/
theorem bind_version_placeAt (r : Registry) (relid lsn : Nat) :
    (r.placeAt relid lsn).bind r.version = r.schemaAt relid lsn := by
  have hfst : (r.versions relid).reverse
      = (r.versions relid).zipIdx.reverse.map Prod.fst := by simp
  rw [schemaAt_eq, placeAt, hfst, List.find?_map]
  cases hfind : (r.versions relid).zipIdx.reverse.find? fun v =>
      decide (v.1.validFromLsn ≤ lsn) with
  | none =>
    have hcomp : (r.versions relid).zipIdx.reverse.find?
        ((fun v => decide (v.validFromLsn ≤ lsn)) ∘ Prod.fst) = none := hfind
    rw [hcomp]
    rfl
  | some v =>
    have hcomp : (r.versions relid).zipIdx.reverse.find?
        ((fun v => decide (v.validFromLsn ≤ lsn)) ∘ Prod.fst) = some v := hfind
    have hmem := List.mem_reverse.mp (List.mem_of_find?_eq_some hfind)
    rw [hcomp, Option.map_some, Option.map_some, Option.bind_some]
    exact List.mem_zipIdx_iff_getElem?.mp hmem

end Registry

/-! ## What a history records -/

/-- A version with the name that its relation had when it was recorded. -/
structure RecordedVersion where
  ref : VersionRef
  name : String
  version : SchemaVersion
  deriving DecidableEq, Repr

/-- The versions of one relation. -/
def ofRelation (relid : Nat) (es : List RecordedVersion) : List RecordedVersion :=
  es.filter fun e => e.ref.relid = relid

/-- The version of a message, when its relation has so many before. -/
def Recorded.versionAt (v : Recorded) (index : Nat) : RecordedVersion where
  ref := ⟨v.rel.relid, index⟩
  name := v.rel.qualifiedName
  version := ⟨v.lsn, v.rel.replident, v.rel.columns⟩

/-- The last of some versions looks like the message. -/
def LooksLike (own : List RecordedVersion) (v : Recorded) : Prop :=
  own.getLast?.map (·.version.columns) = some v.rel.columns ∧
    own.getLast?.map (·.version.replident) = some v.rel.replident

instance (own : List RecordedVersion) (v : Recorded) : Decidable (LooksLike own v) :=
  inferInstanceAs (Decidable (_ ∧ _))

/-- A message records a version, unless the last one of its relation looks the same. -/
def addVersion (es : List RecordedVersion) (v : Recorded) : List RecordedVersion :=
  let own := ofRelation v.rel.relid es
  if LooksLike own v then es else es ++ [v.versionAt own.length]

def recordedVersions (vs : List Recorded) : List RecordedVersion := vs.foldl addVersion []

/-- The version recorded last, at the LSN or below it, under a name. -/
def latestUnder (vs : List Recorded) (qualified : String) (lsn : Nat) : Option VersionRef :=
  ((recordedVersions vs).filter fun e =>
    decide (e.name = qualified ∧ e.version.validFromLsn ≤ lsn)).getLast?.map RecordedVersion.ref

/-- Of the versions up to the LSN that are of the relation that is found now or were
recorded under the name, the last one is both. -/
def NameFollows (vs : List Recorded) (qualified : String) (lsn : Nat) : Prop :=
  let found := (({} : Registry).recordAll vs).named qualified
  ∀ e ∈ ((recordedVersions vs).filter fun e =>
      decide ((some e.ref.relid = found ∨ e.name = qualified) ∧
        e.version.validFromLsn ≤ lsn)).getLast?,
    some e.ref.relid = found ∧ e.name = qualified

theorem recordedVersions_snoc (vs : List Recorded) (v : Recorded) :
    recordedVersions (vs ++ [v]) = addVersion (recordedVersions vs) v := by
  rw [recordedVersions, List.foldl_append]
  rfl

theorem ofRelation_append (relid : Nat) (es fs : List RecordedVersion) :
    ofRelation relid (es ++ fs) = ofRelation relid es ++ ofRelation relid fs :=
  List.filter_append ..

theorem mem_ofRelation {relid : Nat} {es : List RecordedVersion} {e : RecordedVersion} :
    e ∈ ofRelation relid es ↔ e ∈ es ∧ e.ref.relid = relid := by
  simp [ofRelation]

theorem ofRelation_versionAt (relid index : Nat) (v : Recorded) :
    ofRelation relid [v.versionAt index]
      = if v.rel.relid = relid then [v.versionAt index] else [] := by
  have hrel : (v.versionAt index).ref.relid = v.rel.relid := rfl
  unfold ofRelation
  rw [List.filter_cons, hrel]
  by_cases h : v.rel.relid = relid
  · rw [if_pos h, if_pos (decide_eq_true h)]
    rfl
  · rw [if_neg h, if_neg (by rw [decide_eq_true_eq]; exact h)]
    rfl

/-- The registry holds the versions that are recorded, each in its place. -/
theorem versions_recordAll (vs : List Recorded) (relid : Nat) :
    (({} : Registry).recordAll vs).versions relid
        = (ofRelation relid (recordedVersions vs)).map RecordedVersion.version ∧
      (ofRelation relid (recordedVersions vs)).map (fun e => (e.version, e.ref.index))
        = ((ofRelation relid (recordedVersions vs)).map RecordedVersion.version).zipIdx := by
  induction vs using List.reverseRecOn with
  | nil => exact ⟨rfl, rfl⟩
  | append_singleton vs v ih =>
    obtain ⟨hversions, hindex⟩ := ih
    have hrecord : (({} : Registry).recordAll vs).recordAll [v]
        = (({} : Registry).recordAll vs).record v := rfl
    rw [recordedVersions_snoc, Registry.recordAll_append, hrecord, Registry.versions_record,
      addVersion]
    by_cases hrel : v.rel.relid = relid
    · subst hrel
      rw [if_pos rfl, hversions]
      by_cases hsame : LooksLike (ofRelation v.rel.relid (recordedVersions vs)) v
      · have hlast := hsame
        unfold LooksLike at hlast
        rw [if_pos hsame, if_pos (by simpa [List.getLast?_map, Function.comp_def] using hlast)]
        exact ⟨rfl, hindex⟩
      · have hlast := hsame
        unfold LooksLike at hlast
        rw [if_neg hsame, if_neg (by simpa [List.getLast?_map, Function.comp_def] using hlast),
          ofRelation_append, ofRelation_versionAt, if_pos rfl, List.map_append, List.map_append,
          hindex, List.zipIdx_append]
        refine ⟨rfl, ?_⟩
        simp [Recorded.versionAt]
    · rw [if_neg hrel]
      split
      · exact ⟨hversions, hindex⟩
      · rw [ofRelation_append, ofRelation_versionAt, if_neg hrel, List.append_nil]
        exact ⟨hversions, hindex⟩

/-- No two versions are in one place. -/
theorem eq_of_ref {vs : List Recorded} {e e' : RecordedVersion} (he : e ∈ recordedVersions vs)
    (he' : e' ∈ recordedVersions vs) (h : e.ref = e'.ref) : e = e' := by
  have hplace : ∀ x ∈ recordedVersions vs,
      (ofRelation x.ref.relid (recordedVersions vs))[x.ref.index]? = some x := by
    intro x hx
    obtain ⟨k, hk⟩ := List.mem_iff_getElem?.mp (mem_ofRelation.mpr ⟨hx, rfl⟩)
    have hpair := congrArg (·[k]?) (versions_recordAll vs x.ref.relid).2
    simp only [List.getElem?_map, List.getElem?_zipIdx, hk, Option.map_some, Option.some.injEq,
      Prod.mk.injEq] at hpair
    rw [hpair.2, Nat.zero_add]
    exact hk
  have hx := hplace e he
  rw [h, hplace e' he'] at hx
  exact (Option.some.inj hx).symm

/-- `schema_at` refers to the version of the relation that is recorded last. -/
theorem placeAt_recordAll (vs : List Recorded) (relid lsn : Nat) :
    (({} : Registry).recordAll vs).placeAt relid lsn
      = ((recordedVersions vs).filter fun e =>
          decide (e.ref.relid = relid ∧ e.version.validFromLsn ≤ lsn)).getLast?.map
            RecordedVersion.ref := by
  obtain ⟨hversions, hindex⟩ := versions_recordAll vs relid
  have hfilter : ((recordedVersions vs).filter fun e =>
      decide (e.ref.relid = relid ∧ e.version.validFromLsn ≤ lsn))
      = (ofRelation relid (recordedVersions vs)).filter fun e =>
          decide (e.version.validFromLsn ≤ lsn) := by
    unfold ofRelation
    rw [List.filter_filter]
    refine List.filter_congr fun e _ => ?_
    rw [Bool.decide_and, Bool.and_comm]
  rw [Registry.placeAt, hversions, ← hindex, hfilter, List.getLast?_filter, ← List.map_reverse,
    List.find?_map, Option.map_map]
  refine Option.map_congr fun e he => ?_
  have hmem := List.mem_reverse.mp (List.mem_of_find?_eq_some he)
  rw [Function.comp_apply, ← (mem_ofRelation.mp hmem).2]

/-! ## The result -/

/-- The last elements of two kinds are the same one exactly if the last one of either kind
is of both. -/
private theorem getLast?_filter_eq_iff {α β : Type} {f : α → β} {p q : α → Bool} {l : List α}
    (hinj : ∀ a ∈ l, ∀ b ∈ l, f a = f b → a = b) :
    (l.filter p).getLast?.map f = (l.filter q).getLast?.map f ↔
      ∀ a ∈ (l.filter fun a => p a || q a).getLast?, p a = true ∧ q a = true := by
  induction l using List.reverseRecOn with
  | nil => simp
  | append_singleton l a ih =>
    have hold : ∀ a ∈ l, ∀ b ∈ l, f a = f b → a = b := fun x hx y hy =>
      hinj x (List.mem_append_left _ hx) y (List.mem_append_left _ hy)
    have hother : ∀ r : α → Bool, r a = false → some (f a) ≠ (l.filter r).getLast?.map f := by
      intro r hr heq
      obtain ⟨b, hb, hfb⟩ := Option.map_eq_some_iff.mp heq.symm
      obtain ⟨hbl, hrb⟩ := List.mem_filter.mp (List.mem_of_getLast? hb)
      obtain rfl := hinj b (List.mem_append_left _ hbl) a (by simp) hfb
      rw [hr] at hrb
      exact absurd hrb (by simp)
    simp only [List.filter_append, List.filter_cons, List.filter_nil]
    cases hp : p a with
    | true =>
      cases hq : q a with
      | true => simp [hp, hq]
      | false =>
        have hne := hother q hq
        simpa [hp, hq] using hne
    | false =>
      cases hq : q a with
      | true =>
        have hne := hother p hp
        simpa [hp, hq] using hne.symm
      | false => simpa using ih hold

/-- The lookup by name answers with the version that was recorded last under the name
exactly if the name follows its relation. -/
theorem schema_for_table_iff (vs : List Recorded) (qualified : String) (lsn : Nat) :
    (({} : Registry).recordAll vs).schemaForTable qualified lsn = latestUnder vs qualified lsn ↔
      NameFollows vs qualified lsn := by
  have hinj : ∀ e ∈ recordedVersions vs, ∀ e' ∈ recordedVersions vs, e.ref = e'.ref → e = e' :=
    fun e he e' he' => eq_of_ref he he'
  unfold NameFollows Registry.schemaForTable latestUnder
  generalize hfound : (({} : Registry).recordAll vs).named qualified = found
  have hcode : (found.bind fun relid => (({} : Registry).recordAll vs).placeAt relid lsn)
      = ((recordedVersions vs).filter fun e =>
          decide (some e.ref.relid = found ∧ e.version.validFromLsn ≤ lsn)).getLast?.map
            RecordedVersion.ref := by
    cases found with
    | none => simp
    | some relid =>
      rw [Option.bind_some, placeAt_recordAll]
      simp only [Option.some.injEq]
  rw [hcode, getLast?_filter_eq_iff hinj]
  have heither : (fun e : RecordedVersion =>
      decide (some e.ref.relid = found ∧ e.version.validFromLsn ≤ lsn) ||
        decide (e.name = qualified ∧ e.version.validFromLsn ≤ lsn))
      = fun e => decide ((some e.ref.relid = found ∨ e.name = qualified) ∧
          e.version.validFromLsn ≤ lsn) := by
    funext e
    rw [← Bool.decide_or]
    exact decide_eq_decide.mpr or_and_right.symm
  rw [heither]
  refine forall₂_congr fun e he => ?_
  have hle : e.version.validFromLsn ≤ lsn := by
    have hmem := (List.mem_filter.mp (List.mem_of_getLast? he)).2
    exact (of_decide_eq_true hmem).2
  simp [hle]

/-- The name of a relation is that of its last message. -/
theorem qualifiedName_recordAll (vs : List Recorded) (relid : Nat) :
    ((({} : Registry).recordAll vs).tables.lookup relid).map TableEntry.qualifiedName
      = ((vs.filter fun v => v.rel.relid = relid).getLast?).map fun v => v.rel.qualifiedName := by
  induction vs using List.reverseRecOn with
  | nil => rfl
  | append_singleton vs v ih =>
    have hrecord : (({} : Registry).recordAll vs).recordAll [v]
        = (({} : Registry).recordAll vs).recordVersion v.rel v.lsn := rfl
    rw [Registry.recordAll_append, hrecord, List.filter_append, Registry.recordVersion]
    by_cases hrel : v.rel.relid = relid
    · subst hrel
      rw [List.filter_cons_of_pos (by simp)]
      split
      · rw [AList.lookup_insert]
        simp
      · rw [AList.lookup_insert]
        simp
    · have hne : relid ≠ v.rel.relid := fun h => hrel h.symm
      rw [List.filter_cons_of_neg (by simpa using hrel), List.filter_nil, List.append_nil, ← ih]
      split
      · rw [AList.lookup_insert_ne hne]
      · rw [AList.lookup_insert_ne hne]

theorem recordedVersions_sublist (vs : List Recorded) :
    ((recordedVersions vs).map (·.version.validFromLsn)).Sublist (vs.map Recorded.lsn) := by
  induction vs using List.reverseRecOn with
  | nil => exact .slnil
  | append_singleton vs v ih =>
    rw [recordedVersions_snoc, addVersion, List.map_append]
    split
    · exact ih.trans (List.sublist_append_left _ _)
    · rw [List.map_append]
      exact ih.append (.refl _)

/-- In commit order the version recorded last is the one with the highest LSN. -/
theorem validFrom_le_latest {vs : List Recorded} {qualified : String} {lsn : Nat}
    (hmono : (vs.map Recorded.lsn).Pairwise (· ≤ ·)) {e : RecordedVersion}
    (he : e ∈ ((recordedVersions vs).filter fun e =>
      decide (e.name = qualified ∧ e.version.validFromLsn ≤ lsn)).getLast?)
    {e' : RecordedVersion} (he' : e' ∈ recordedVersions vs) (hname : e'.name = qualified)
    (hle : e'.version.validFromLsn ≤ lsn) : e'.version.validFromLsn ≤ e.version.validFromLsn := by
  have hfilter : (((recordedVersions vs).filter fun e =>
      decide (e.name = qualified ∧ e.version.validFromLsn ≤ lsn)).map
        (·.version.validFromLsn)).Sublist (vs.map Recorded.lsn) :=
    (List.filter_sublist.map _).trans (recordedVersions_sublist vs)
  have hsorted := hmono.sublist hfilter
  have hmem : e' ∈ (recordedVersions vs).filter fun e =>
      decide (e.name = qualified ∧ e.version.validFromLsn ≤ lsn) :=
    List.mem_filter.mpr ⟨he', decide_eq_true ⟨hname, hle⟩⟩
  rw [← List.dropLast_append_getLast? e he] at hmem hsorted
  rcases List.mem_append.mp hmem with hmem | hmem
  · rw [List.map_append, List.pairwise_append] at hsorted
    exact hsorted.2.2 _ (List.mem_map_of_mem hmem) _ (by simp)
  · rw [List.mem_singleton.mp hmem]

/-- A table is dropped and created again under its name, and the lookup still answers with
the columns of the dropped one. -/
theorem schema_of_dropped_table : ∃ vs : List Recorded,
    let r := ({} : Registry).recordAll vs
    (vs.map Recorded.lsn).Pairwise (· ≤ ·) ∧
      ((r.schemaForTable "p.t" 20).bind r.version).map (·.columns.map ColumnDesc.name)
        = some ["a"] ∧
      ((latestUnder vs "p.t" 20).bind r.version).map (·.columns.map ColumnDesc.name)
        = some ["b"] := by
  refine ⟨[⟨10, ⟨1, "p", "t", 100, [⟨"a", 25, -1, true⟩]⟩⟩,
    ⟨20, ⟨2, "p", "t", 100, [⟨"b", 25, -1, true⟩]⟩⟩], ?_⟩
  decide +kernel

end GrayDB.Registry
