import GrayDB.Columnar.Apply
import GrayDB.Lib.Utf8
import Mathlib.Data.List.Infix
import Mathlib.Data.List.Nodup

/-!
# Keys apart

`keyOf` puts the parts of a key one behind the other: a tag for NULL or text, the text, and
a separator.  The text is not escaped, so that a text with a separator and a tag in it
looks like the end of one part and the beginning of the next.

* `SameKey` says that two rows agree on every key column, and `KeysApart` that only such
  rows have one encoding.
* `flatMap_keyPart_injective` is the case of texts without such an inner boundary.
* `keys_apart_iff` is the result: the encoding keeps all rows apart exactly if the table
  has at most one key column.
-/

namespace GrayDB.Columnar

open Log

/-- The bytes of one part of a key. -/
def keyPart : Option String → Bytes
  | some t => 1 :: t.toUTF8.toList ++ [0x1F]
  | none => [0, 0x1F]

/-- The text holds no separator with the tag of another part behind it. -/
def NoBoundary (v : Option String) : Prop :=
  ∀ t ∈ v, ¬ [0x1F, 0] <:+: t.toUTF8.toList ∧ ¬ [0x1F, 1] <:+: t.toUTF8.toList

namespace TableStore

/-- The rows agree on every key column. -/
def SameKey (s : TableStore) (row row' : Row) : Prop := ∀ i ∈ s.keyIdx, row[i]? = row'[i]?

/-- No part of the key of the row looks like several. -/
def CleanKey (s : TableStore) (row : Row) : Prop := ∀ i ∈ s.keyIdx, ∀ v ∈ row[i]?, NoBoundary v

/-- Rows with one encoding agree on every key column. -/
def KeysApart (s : TableStore) : Prop :=
  ∀ (row row' : Row) (key : Bytes), s.keyOf row = some key → s.keyOf row' = some key →
    s.SameKey row row'

end TableStore

/-! ## The parts of a key -/

theorem keyOf_eq (s : TableStore) (values : Row) :
    s.keyOf values = (s.keyIdx.mapM fun i => values[i]?).map (·.flatMap keyPart) := by
  unfold TableStore.keyOf
  cases s.keyIdx.mapM fun i => values[i]? with
  | none => rfl
  | some parts =>
    refine congrArg some (List.flatMap_congr fun v _ => ?_)
    cases v with
    | none => rfl
    | some t => rfl

/-- What follows in a key is nothing, or it begins with a tag. -/
private theorem head_flatMap_keyPart (vs : List (Option String)) {b : UInt8} {rest : Bytes}
    (h : vs.flatMap keyPart = b :: rest) : b = 0 ∨ b = 1 := by
  cases vs with
  | nil => simp at h
  | cons v vs =>
    cases v with
    | none =>
      simp only [List.flatMap_cons, keyPart, List.cons_append, List.cons.injEq] at h
      exact .inl h.1.symm
    | some t =>
      simp only [List.flatMap_cons, keyPart, List.cons_append, List.cons.injEq] at h
      exact .inr h.1.symm

/-- A text that goes on behind the end of another one has a boundary inside. -/
private theorem eq_nil_of_noBoundary {t u : Bytes} {c : Bytes} {vs : List (Option String)}
    {rest : Bytes} (hzero : ¬ [0x1F, 0] <:+: u) (hone : ¬ [0x1F, 1] <:+: u) (hu : u = t ++ c)
    (h : 0x1F :: vs.flatMap keyPart = c ++ 0x1F :: rest) : c = [] := by
  cases c with
  | nil => rfl
  | cons sep c =>
    rw [List.cons_append, List.cons.injEq] at h
    obtain ⟨rfl, h⟩ := h
    cases c with
    | nil =>
      -- the next part would begin with a separator
      rcases head_flatMap_keyPart vs h with hsep | hsep
      · exact absurd hsep (by decide)
      · exact absurd hsep (by decide)
    | cons tag c =>
      rcases head_flatMap_keyPart vs h with rfl | rfl
      · exact absurd ⟨t, c, by simp [hu]⟩ hzero
      · exact absurd ⟨t, c, by simp [hu]⟩ hone

/-- The first part of a key without inner boundaries can be read off. -/
private theorem keyPart_front {v w : Option String} {vs ws : List (Option String)}
    (hv : NoBoundary v) (hw : NoBoundary w)
    (h : keyPart v ++ vs.flatMap keyPart = keyPart w ++ ws.flatMap keyPart) : v = w := by
  cases v with
  | none =>
    cases w with
    | none => rfl
    | some t => simp [keyPart] at h
  | some t =>
    cases w with
    | none => simp [keyPart] at h
    | some u =>
      have htail : t.toUTF8.toList ++ 0x1F :: vs.flatMap keyPart
          = u.toUTF8.toList ++ 0x1F :: ws.flatMap keyPart := by
        simpa [keyPart] using h
      obtain ⟨htzero, htone⟩ := hv t rfl
      obtain ⟨huzero, huone⟩ := hw u rfl
      rcases List.append_eq_append_iff.mp htail with ⟨c, hu, hrest⟩ | ⟨c, ht, hrest⟩
      · obtain rfl := eq_nil_of_noBoundary huzero huone hu hrest
        rw [List.append_nil] at hu
        rw [Lib.toUTF8_toList_injective hu]
      · obtain rfl := eq_nil_of_noBoundary htzero htone ht hrest
        rw [List.append_nil] at ht
        rw [Lib.toUTF8_toList_injective ht]

/-- Keys without inner boundaries are read back part by part. -/
theorem flatMap_keyPart_injective {vs ws : List (Option String)} (hlen : vs.length = ws.length)
    (hv : ∀ v ∈ vs, NoBoundary v) (hw : ∀ w ∈ ws, NoBoundary w)
    (h : vs.flatMap keyPart = ws.flatMap keyPart) : vs = ws := by
  induction vs generalizing ws with
  | nil => exact (List.eq_nil_of_length_eq_zero hlen.symm).symm
  | cons v vs ih =>
    cases ws with
    | nil => simp at hlen
    | cons w ws =>
      rw [List.flatMap_cons, List.flatMap_cons] at h
      obtain rfl := keyPart_front (hv v List.mem_cons_self) (hw w List.mem_cons_self) h
      rw [List.append_cancel_left_eq] at h
      rw [ih (by simpa using hlen) (fun x hx => hv x (List.mem_cons_of_mem v hx))
        (fun x hx => hw x (List.mem_cons_of_mem v hx)) h]

theorem keyPart_injective {v w : Option String} (h : keyPart v = keyPart w) : v = w := by
  cases v with
  | none =>
    cases w with
    | none => rfl
    | some t => simp [keyPart] at h
  | some t =>
    cases w with
    | none => simp [keyPart] at h
    | some u =>
      have htext : t.toUTF8.toList = u.toUTF8.toList := by simpa [keyPart] using h
      rw [Lib.toUTF8_toList_injective htext]

/-! ## The key of a row -/

private theorem mapM_getElem {ks : List Nat} {row : Row} {parts : List (Option String)}
    (h : (ks.mapM fun i => row[i]?) = some parts) : ks.map (row[·]?) = parts.map some := by
  induction ks generalizing parts with
  | nil =>
    obtain rfl : [] = parts := by simpa using h
    rfl
  | cons k ks ih =>
    rw [List.mapM_cons, Option.bind_eq_bind, Option.bind_eq_some_iff] at h
    obtain ⟨v, hv, h⟩ := h
    rw [Option.bind_eq_bind, Option.bind_eq_some_iff] at h
    obtain ⟨vs, hvs, h⟩ := h
    obtain rfl : v :: vs = parts := by simpa using h
    rw [List.map_cons, List.map_cons, hv, ih hvs]

namespace TableStore

variable {s : TableStore}

/-- The parts that a key is made of. -/
theorem exists_parts {row : Row} {key : Bytes} (h : s.keyOf row = some key) :
    ∃ parts : List (Option String), s.keyIdx.map (row[·]?) = parts.map some ∧
      key = parts.flatMap keyPart := by
  rw [keyOf_eq, Option.map_eq_some_iff] at h
  obtain ⟨parts, hparts, rfl⟩ := h
  exact ⟨parts, mapM_getElem hparts, rfl⟩

theorem sameKey_of_parts {row row' : Row} {parts : List (Option String)}
    (h : s.keyIdx.map (row[·]?) = parts.map some)
    (h' : s.keyIdx.map (row'[·]?) = parts.map some) : s.SameKey row row' :=
  List.map_inj_left.mp (h.trans h'.symm)

theorem noBoundary_of_parts {row : Row} {parts : List (Option String)}
    (h : s.keyIdx.map (row[·]?) = parts.map some) (hclean : s.CleanKey row) :
    ∀ v ∈ parts, NoBoundary v := by
  intro v hv
  have hmem : some v ∈ s.keyIdx.map (row[·]?) := by
    rw [h]
    exact List.mem_map_of_mem hv
  obtain ⟨i, hi, hget⟩ := List.mem_map.mp hmem
  exact hclean i hi v hget

/-- Rows whose key texts have no boundary inside are kept apart. -/
theorem sameKey_of_clean {row row' : Row} {key : Bytes} (hclean : s.CleanKey row)
    (hclean' : s.CleanKey row') (h : s.keyOf row = some key) (h' : s.keyOf row' = some key) :
    s.SameKey row row' := by
  obtain ⟨parts, hparts, rfl⟩ := exists_parts h
  obtain ⟨parts', hparts', hkey⟩ := exists_parts h'
  have hlen : parts.length = parts'.length := by
    have hl := congrArg List.length hparts
    have hl' := congrArg List.length hparts'
    rw [List.length_map, List.length_map] at hl hl'
    exact hl.symm.trans hl'
  obtain rfl := flatMap_keyPart_injective hlen (noBoundary_of_parts hparts hclean)
    (noBoundary_of_parts hparts' hclean') hkey
  exact sameKey_of_parts hparts hparts'

/-- One key column is kept apart whatever its text is. -/
theorem keysApart_of_length (h : s.keyIdx.length ≤ 1) : s.KeysApart := by
  intro row row' key hrow hrow'
  obtain ⟨parts, hparts, rfl⟩ := exists_parts hrow
  obtain ⟨parts', hparts', hkey⟩ := exists_parts hrow'
  have hlen : parts.length = s.keyIdx.length := by simpa using (congrArg List.length hparts).symm
  have hlen' : parts'.length = s.keyIdx.length := by simpa using (congrArg List.length hparts').symm
  have heq : parts = parts' := by
    cases parts with
    | nil => exact (List.eq_nil_of_length_eq_zero (hlen'.trans hlen.symm)).symm
    | cons v vs =>
      have hnil : vs.length = 0 := by
        rw [List.length_cons] at hlen
        omega
      obtain rfl : vs = [] := List.eq_nil_of_length_eq_zero hnil
      obtain ⟨w, rfl⟩ := List.length_eq_one_iff.mp (hlen'.trans hlen.symm)
      have hpart : keyPart v = keyPart w := by simpa using hkey
      rw [keyPart_injective hpart]
  subst heq
  exact sameKey_of_parts hparts hparts'

/-! ## Composite keys -/

theorem keyIdx_sublist (s : TableStore) : s.keyIdx.Sublist (List.range s.columns.length) := by
  have hfilter : s.keyIdx = (s.columns.zipIdx.filter (·.1.isKey)).map Prod.snd := by
    unfold keyIdx
    induction s.columns.zipIdx with
    | nil => rfl
    | cons c cs ih =>
      rw [List.filterMap_cons, List.filter_cons]
      cases hc : c.1.isKey with
      | true => simp [ih]
      | false => simp [ih]
  have hsnd : s.columns.zipIdx.map Prod.snd = List.range s.columns.length := by
    simp [List.range_eq_range']
  rw [hfilter, ← hsnd]
  exact List.filter_sublist.map _

/-- A row with these texts in two of its columns. -/
def pairRow (n i j : Nat) (a b : String) : Row :=
  (List.range n).map fun k => if k = i then some a else if k = j then some b else none

private theorem mapM_pairRow {n i j : Nat} {a b : String} {ks : List Nat} (h : ∀ k ∈ ks, k < n) :
    (ks.mapM fun k => (pairRow n i j a b)[k]?)
      = some (ks.map fun k => if k = i then some a else if k = j then some b else none) := by
  induction ks with
  | nil => rfl
  | cons k ks ih =>
    have hk : k < n := h k List.mem_cons_self
    rw [List.mapM_cons, ih fun x hx => h x (List.mem_cons_of_mem k hx)]
    simp [pairRow, hk]

/-- A separator and a tag in a text move the boundary between two parts. -/
theorem not_keysApart (h : 1 < s.keyIdx.length) : ¬ s.KeysApart := by
  intro hapart
  have hsub := s.keyIdx_sublist
  match hidx : s.keyIdx, h with
  | i :: j :: ks, _ =>
    rw [hidx] at hsub
    have hnodup : (i :: j :: ks).Nodup := hsub.nodup List.nodup_range
    have hlt : ∀ k ∈ i :: j :: ks, k < s.columns.length := fun k hk =>
      List.mem_range.mp (hsub.subset hk)
    have hij : i ≠ j := fun heq => (List.nodup_cons.mp hnodup).1 (by simp [heq])
    have hkey : ∀ a b, s.keyOf (pairRow s.columns.length i j a b) = some
        (keyPart (some a) ++ (keyPart (some b) ++ ks.flatMap fun _ => keyPart none)) := by
      intro a b
      have hrest : ks.flatMap (fun k => keyPart
          (if k = i then some a else if k = j then some b else none))
          = ks.flatMap fun _ => keyPart none := by
        refine List.flatMap_congr fun k hk => ?_
        have hki : k ≠ i := fun heq => (List.nodup_cons.mp hnodup).1 (by simp [← heq, hk])
        have hkj : k ≠ j := fun heq =>
          (List.nodup_cons.mp (List.nodup_cons.mp hnodup).2).1 (by simp [← heq, hk])
        rw [if_neg hki, if_neg hkj]
      rw [keyOf_eq, hidx, mapM_pairRow hlt, Option.map_some, List.flatMap_map, List.flatMap_cons,
        List.flatMap_cons, if_pos rfl, if_neg (Ne.symm hij), if_pos rfl, hrest]
    have hsame := hapart _ _ _ (hkey "\u001f\u0001" "") ((hkey "" "\u001f\u0001").trans ?_)
    · have hi := hsame i (by simp [hidx])
      have hilt : i < s.columns.length := hlt i List.mem_cons_self
      simp [pairRow, hilt] at hi
    · have hbytes : keyPart (some "") ++ keyPart (some "\u001f\u0001")
          = keyPart (some "\u001f\u0001") ++ keyPart (some "") := by decide +kernel
      rw [← List.append_assoc, hbytes, List.append_assoc]

/-- The encoding keeps all rows apart exactly if there is at most one key column.  With
more of them, it keeps those apart whose key texts hold no separator with a tag behind
it. -/
theorem keys_apart_iff (s : TableStore) :
    (s.KeysApart ↔ s.keyIdx.length ≤ 1) ∧
      ∀ (row row' : Row) (key : Bytes), s.CleanKey row → s.CleanKey row' →
        s.keyOf row = some key → s.keyOf row' = some key → s.SameKey row row' := by
  refine ⟨⟨?_, keysApart_of_length⟩, fun _ _ _ => sameKey_of_clean⟩
  intro hapart
  by_contra hmany
  exact not_keysApart (by omega) hapart

end TableStore

/-- Two rows with different keys, one of which the store takes for the other. -/
theorem keys_collide : ∃ (s : TableStore) (row row' : Row) (key : Bytes),
    s.keyOf row = some key ∧ s.keyOf row' = some key ∧ row ≠ row' ∧ ¬ s.SameKey row row' := by
  refine ⟨{ table := "p.t", columns := [⟨"a", 25, true⟩, ⟨"b", 25, true⟩], flushRows := 100 },
    [some "a\u001f\u0001b", some "c"], [some "a", some "b\u001f\u0001c"],
    [1, 0x61, 0x1F, 1, 0x62, 0x1F, 1, 0x63, 0x1F], ?_⟩
  unfold TableStore.SameKey
  decide +kernel

end GrayDB.Columnar
