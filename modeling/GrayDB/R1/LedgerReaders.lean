import GrayDB.Lib.Guarded
import GrayDB.R1.Ledger
import Mathlib.Data.List.TakeWhile

/-!
# Readers of the ledger under its writer

The writer, the file as far as it is visible, and any number of handles that are
refreshed.  Every step of one party can fall between any two of another: an append,
more bytes becoming visible, the head of a refresh and each round of its loop.

The invariant is in the position of a handle.  `At es k p`: the offset `p` is behind the
line of entry `k`, or between that entry and its newline, because an entry that is
complete but for its newline is already taken.  `refreshLine_spec` is the one step that
moves it.
-/

namespace GrayDB.R1

open Lib Log

section Bytes

variable [LedgerText]

/-- The file of these entries. -/
def ledgerBytes (es : List LedgerEntry) : Bytes := es.flatMap fun e => toJson e ++ [newline]

/-- What `serde_json` does with an entry whose strings are hexadecimal digits: one line
of ASCII that is read back, and of which no part from the front is JSON. -/
structure JsonLine (e : LedgerEntry) : Prop where
  nonempty : toJson e ≠ []
  ascii : ∀ b ∈ toJson e, b < 0x80
  oneLine : ∀ b ∈ toJson e, b ≠ newline ∧ b ≠ 0x0D
  roundTrip : fromJson (toJson e) = some e
  cut : ∀ p, p <+: toJson e → p ≠ toJson e → p ≠ [] → fromJson p = none

/-- The entry continues the chain. -/
structure Continues (entries : List LedgerEntry) (e : LedgerEntry) : Prop where
  sequence : e.sequence = nextSequence entries
  hash : e.entrySha256 = entryHash e
  previous : e.previousEntrySha256 = lastHash entries

def Chained (es : List LedgerEntry) : Prop :=
  ∀ (i : Nat) (e : LedgerEntry), es[i]? = some e → Continues (es.take i) e

theorem checkEntry_of_continues {entries : List LedgerEntry} {e : LedgerEntry}
    (h : Continues entries e) : checkEntry entries e = .ok () := by
  rw [checkEntry, if_neg (not_not_intro h.sequence), if_neg (not_not_intro h.hash),
    if_neg (not_not_intro h.previous)]

/-- An append that succeeds writes the line of an entry that continues the chain. -/
theorem append_eq_ok {l l' : CommittedLedger} {entry : LedgerEntry} {bytes : Bytes}
    (h : l.append entry = .ok (l', bytes)) :
    Continues l.entries { entry with entrySha256 := entryHash entry } ∧
      l' = { l with entries := l.entries ++ [{ entry with entrySha256 := entryHash entry }] } ∧
      bytes = toJson { entry with entrySha256 := entryHash entry } ++ [newline] := by
  unfold CommittedLedger.append at h
  split at h
  · exact nomatch h
  · rename_i hseq
    split at h
    · exact nomatch h
    · rename_i hprevious
      obtain ⟨rfl, rfl⟩ := Prod.mk.inj (Except.ok.inj h)
      exact ⟨⟨not_not.mp hseq, rfl, not_not.mp hprevious⟩, rfl, rfl⟩

theorem Chained.append {es : List LedgerEntry} {e : LedgerEntry} (h : Chained es)
    (he : Continues es e) : Chained (es ++ [e]) := by
  intro i e' hi
  by_cases hlt : i < es.length
  · rw [List.getElem?_append_left hlt] at hi
    rw [List.take_append_of_le_length (Nat.le_of_lt hlt)]
    exact h i e' hi
  · have hi' : i = es.length := by
      have := (List.getElem?_eq_some_iff.mp hi).1
      rw [List.length_append, List.length_singleton] at this
      omega
    subst hi'
    rw [List.getElem?_concat_length] at hi
    obtain rfl := Option.some.inj hi
    rw [List.take_left]
    exact he

/-! ## Lines -/

omit [LedgerText] in
theorem readLine_of_notMem {data : Bytes} (h : newline ∉ data) : readLine data = data := by
  have hall : data.takeWhile (· != newline) = data :=
    List.takeWhile_eq_self_iff.mpr fun b hb => bne_iff_ne.mpr fun heq => h (heq ▸ hb)
  rw [readLine, hall, if_neg (Nat.lt_irrefl _)]

omit [LedgerText] in
theorem readLine_line {text : Bytes} (h : newline ∉ text) (rest : Bytes) :
    readLine (text ++ newline :: rest) = text ++ [newline] := by
  have hsplit : (text ++ newline :: rest).takeWhile (· != newline) = text := by
    have hkeep : ∀ b ∈ text, (b != newline) = true := fun b hb => bne_iff_ne.mpr fun heq => h (heq ▸ hb)
    rw [List.takeWhile_append_of_pos hkeep]
    simp
  have hlt : text.length < (text ++ newline :: rest).length := by
    rw [List.length_append, List.length_cons]
    omega
  rw [readLine, hsplit, if_pos hlt]

omit [LedgerText] in
theorem trimEnd_text {text : Bytes} (h : ∀ b ∈ text, b ≠ newline ∧ b ≠ 0x0D) :
    trimEnd text = text ∧ trimEnd (text ++ [newline]) = text := by
  have hkeep : text.reverse.dropWhile (fun b => b == newline || b == 0x0D) = text.reverse := by
    cases hrev : text.reverse with
    | nil => rfl
    | cons b rest =>
      obtain ⟨hnl, hcr⟩ := h b (List.mem_reverse.mp (hrev ▸ List.mem_cons_self))
      simp [hnl, hcr]
  constructor
  · rw [trimEnd, hkeep, List.reverse_reverse]
  · rw [trimEnd, List.reverse_append, List.reverse_singleton, List.singleton_append,
      List.dropWhile_cons_of_pos (by simp), hkeep, List.reverse_reverse]

/-! ## Positions -/

@[simp] theorem ledgerBytes_append (es es' : List LedgerEntry) :
    ledgerBytes (es ++ es') = ledgerBytes es ++ ledgerBytes es' := List.flatMap_append

theorem ledgerBytes_singleton (e : LedgerEntry) : ledgerBytes [e] = toJson e ++ [newline] :=
  List.append_nil _

theorem ledgerBytes_drop {es : List LedgerEntry} {k : Nat} {e : LedgerEntry}
    (h : es[k]? = some e) :
    ledgerBytes (es.drop k) = toJson e ++ newline :: ledgerBytes (es.drop (k + 1)) := by
  obtain ⟨hk, rfl⟩ := List.getElem?_eq_some_iff.mp h
  rw [List.drop_eq_getElem_cons hk, ledgerBytes, List.flatMap_cons, List.append_assoc]
  rfl

/-- The offset is behind entry `k`, or behind all of it but its newline. -/
def At (es : List LedgerEntry) (k p : Nat) : Prop :=
  k ≤ es.length ∧ ∃ front rest, ledgerBytes es = front ++ rest ∧ front.length = p ∧
    (rest = ledgerBytes (es.drop k) ∨ rest = newline :: ledgerBytes (es.drop k))

theorem At.zero (es : List LedgerEntry) : At es 0 0 :=
  ⟨Nat.zero_le _, [], ledgerBytes es, rfl, rfl, .inl rfl⟩

theorem At.append {es : List LedgerEntry} {k p : Nat} (h : At es k p) (e : LedgerEntry) :
    At (es ++ [e]) k p := by
  obtain ⟨hk, front, rest, hsplit, hlen, hrest⟩ := h
  refine ⟨by rw [List.length_append]; omega, front, rest ++ ledgerBytes [e], ?_, hlen, ?_⟩
  · rw [ledgerBytes_append, hsplit, List.append_assoc]
  · rw [List.drop_append_of_le_length hk, ledgerBytes_append]
    obtain rfl | rfl := hrest
    · exact .inl rfl
    · exact .inr rfl

omit [LedgerText] in
/-- What the visible bytes hold behind an offset. -/
theorem exists_of_visible {data front rest : Bytes} (h : data <+: front ++ rest)
    (hlen : front.length ≤ data.length) : ∃ d, data = front ++ d ∧ d <+: rest := by
  obtain ⟨d, rfl⟩ : front <+: data :=
    List.prefix_of_prefix_length_le (List.prefix_append _ _) h hlen
  exact ⟨d, rfl, (List.prefix_append_right_inj front).mp h⟩

/-- All lines up to this length are lines before the offset. -/
theorem At.le_of_length_lt {es : List LedgerEntry} {k : Nat} {n j : Nat}
    (hn : ∀ e, es[k]? = some e → n < (ledgerBytes (es.take (k + 1))).length)
    (hj : j ≤ es.length) (hjn : (ledgerBytes (es.take j)).length ≤ n) : j ≤ k := by
  by_contra hgt
  have hk : k < es.length := by omega
  have hlt := hn es[k] (List.getElem?_eq_getElem hk)
  have hle : (ledgerBytes (es.take (k + 1))).length ≤ (ledgerBytes (es.take j)).length := by
    have hsplit : es.take j = es.take (k + 1) ++ (es.drop (k + 1)).take (j - (k + 1)) := by
      rw [← List.take_add, Nat.add_sub_cancel' (by omega)]
    rw [hsplit, ledgerBytes_append, List.length_append]
    omega
  omega

theorem At.length_take {es : List LedgerEntry} {k p : Nat} (h : At es k p) :
    p ≤ (ledgerBytes (es.take k)).length ∧ (ledgerBytes (es.take k)).length ≤ p + 1 := by
  obtain ⟨-, front, rest, hsplit, rfl, hrest⟩ := h
  have htotal := congrArg List.length hsplit
  rw [← List.take_append_drop k es, ledgerBytes_append, List.length_append,
    List.length_append] at htotal
  obtain rfl | rfl := hrest
  · omega
  · rw [List.length_cons] at htotal
    omega

theorem length_ledgerBytes_take_succ {es : List LedgerEntry} {k : Nat} {e : LedgerEntry}
    (h : es[k]? = some e) : (ledgerBytes (es.take (k + 1))).length
      = (ledgerBytes (es.take k)).length + (toJson e).length + 1 := by
  rw [List.take_add_one, h, ledgerBytes_append]
  simp [ledgerBytes, Nat.add_assoc]

/-! ## One round -/

section Round

variable {data : Bytes} {fileLen p : Nat} {r : Reader}

/-- There is nothing left to read. -/
theorem refreshLine_end (h : data.drop p = []) :
    refreshLine data fileLen p r = .ok (r.finish p) := by
  have hline : readLine (data.drop p) = [] := by
    rw [h]
    rfl
  have hvalid : utf8Valid [] = true := utf8Valid_ascii (by simp)
  unfold refreshLine
  simp only [hline]
  rw [if_neg (not_not_intro hvalid), if_pos trivial]

/-- The newline that an entry was still to get. -/
theorem refreshLine_newline (h : readLine (data.drop p) = [newline]) :
    refreshLine data fileLen p r = .ok { r with refreshing := some (fileLen, p + 1) } := by
  have hvalid : utf8Valid [newline] = true := by
    apply utf8Valid_ascii
    simp [newline]
  have htrim : trimEnd [newline] = [] := by decide
  unfold refreshLine
  simp only [h, htrim]
  rw [if_neg (not_not_intro hvalid), if_neg (List.cons_ne_nil _ _), if_pos trivial]
  rfl

/-- A line with a whole entry. -/
theorem refreshLine_entry {e : LedgerEntry} (hjson : JsonLine e)
    (he : Continues r.ledger.entries e)
    (h : readLine (data.drop p) = toJson e ∨ readLine (data.drop p) = toJson e ++ [newline]) :
    refreshLine data fileLen p r = .ok
      { ledger := { r.ledger with entries := r.ledger.entries ++ [e] }
        refreshing := some (fileLen, p + (readLine (data.drop p)).length) } := by
  obtain ⟨htrim, htrim'⟩ := trimEnd_text hjson.oneLine
  have hvalid : utf8Valid (readLine (data.drop p)) = true := by
    apply utf8Valid_ascii
    intro b hb
    obtain heq | heq := h
    · exact hjson.ascii b (heq ▸ hb)
    · rw [heq, List.mem_append, List.mem_singleton] at hb
      obtain hb | rfl := hb
      · exact hjson.ascii b hb
      · decide
  have hne : readLine (data.drop p) ≠ [] := by
    obtain heq | heq := h
    · rw [heq]
      exact hjson.nonempty
    · rw [heq]
      simp
  have htext : trimEnd (readLine (data.drop p)) = toJson e := by
    obtain heq | heq := h
    · rw [heq, htrim]
    · rw [heq, htrim']
  unfold refreshLine
  simp only [htext]
  rw [if_neg (not_not_intro hvalid), if_neg hne, if_neg hjson.nonempty, hjson.roundTrip]
  simp only [checkEntry_of_continues he]

/-- A line that the writer has not finished. -/
theorem refreshLine_partial {e : LedgerEntry} (hjson : JsonLine e)
    (hcut : data.drop p <+: toJson e) (hne : data.drop p ≠ []) (hpart : data.drop p ≠ toJson e)
    (hlen : fileLen ≤ data.length) : refreshLine data fileLen p r = .ok (r.finish p) := by
  have hline : ∀ b ∈ data.drop p, b ≠ newline ∧ b ≠ 0x0D := fun b hb =>
    hjson.oneLine b (hcut.subset hb)
  have hread : readLine (data.drop p) = data.drop p :=
    readLine_of_notMem fun h => (hline newline h).1 rfl
  have hvalid : utf8Valid (data.drop p) = true :=
    utf8Valid_ascii fun b hb => hjson.ascii b (hcut.subset hb)
  have hend : fileLen ≤ p + (data.drop p).length ∧ (data.drop p).getLast? ≠ some newline := by
    constructor
    · rw [List.length_drop]
      omega
    · intro hlast
      exact (hline newline (List.mem_of_getLast? hlast)).1 rfl
  unfold refreshLine
  simp only [hread, (trimEnd_text hline).1]
  rw [if_neg (not_not_intro hvalid), if_neg hne, if_neg hne, hjson.cut _ hcut hpart hne]
  simp only [if_pos hend]

/-- Where a handle is in a file of these entries, of which these bytes are visible. -/
def Holds (es : List LedgerEntry) (data : Bytes) (r : Reader) : Prop :=
  ∃ k, r.ledger.entries = es.take k ∧
    match r.refreshing with
    | none => At es k r.ledger.loadedBytes ∧ r.ledger.loadedBytes ≤ data.length
    | some (fileLen, p) => fileLen ≤ data.length ∧ At es k p ∧ p ≤ data.length

/-- A round of the loop.  It never fails; when it is the last one, the handle holds every
entry whose line was there when the refresh began; otherwise it has moved on. -/
theorem refreshLine_spec {es : List LedgerEntry} {k : Nat} (hjson : ∀ e ∈ es, JsonLine e)
    (hchain : Chained es) (hdata : data <+: ledgerBytes es) (hat : At es k p)
    (hp : p ≤ data.length) (hlen : fileLen ≤ data.length)
    (hentries : r.ledger.entries = es.take k) :
    ∃ r', refreshLine data fileLen p r = .ok r' ∧ Holds es data r' ∧
      (r'.refreshing = none → ∀ j ≤ es.length,
        (ledgerBytes (es.take j)).length ≤ fileLen → es.take j <+: r'.ledger.entries) ∧
      (∀ f p', r'.refreshing = some (f, p') → f = fileLen ∧ p < p') := by
  -- a last round that leaves the handle where it is
  have hfinish : refreshLine data fileLen p r = .ok (r.finish p) →
      (∀ e, es[k]? = some e → fileLen < (ledgerBytes (es.take (k + 1))).length) →
      ∃ r', refreshLine data fileLen p r = .ok r' ∧ Holds es data r' ∧
        (r'.refreshing = none → ∀ j ≤ es.length,
          (ledgerBytes (es.take j)).length ≤ fileLen → es.take j <+: r'.ledger.entries) ∧
        (∀ f p', r'.refreshing = some (f, p') → f = fileLen ∧ p < p') := by
    intro hrun hn
    refine ⟨_, hrun, ⟨k, hentries, hat, hp⟩, fun _ j hj hjn => ?_, fun f p' h => nomatch h⟩
    show es.take j <+: r.ledger.entries
    rw [hentries]
    exact List.take_prefix_take_left (At.le_of_length_lt hn hj hjn)
  obtain ⟨hk, front, rest, hsplit, rfl, hrest⟩ := hat
  have hat : At es k front.length := ⟨hk, front, rest, hsplit, rfl, hrest⟩
  obtain ⟨d, rfl, hd⟩ := exists_of_visible (hsplit ▸ hdata) hp
  have hdrop : (front ++ d).drop front.length = d := List.drop_left
  by_cases hnil : d = []
  · subst hnil
    refine hfinish (refreshLine_end hdrop) fun e he => ?_
    have htake := hat.length_take.1
    have hsucc := length_ledgerBytes_take_succ he
    rw [List.append_nil] at hlen
    omega
  -- a round that moves on, to the bytes behind `front'`
  have hmove : ∀ (r' : Reader) (k' : Nat) (front' d' rest' : Bytes), k' ≤ es.length →
      refreshLine (front ++ d) fileLen front.length r = .ok r' →
      r'.refreshing = some (fileLen, front'.length) → front.length < front'.length →
      front ++ d = front' ++ d' → ledgerBytes es = front' ++ rest' →
      (rest' = ledgerBytes (es.drop k') ∨ rest' = newline :: ledgerBytes (es.drop k')) →
      r'.ledger.entries = es.take k' →
      ∃ r', refreshLine (front ++ d) fileLen front.length r = .ok r' ∧
        Holds es (front ++ d) r' ∧
        (r'.refreshing = none → ∀ j ≤ es.length,
          (ledgerBytes (es.take j)).length ≤ fileLen → es.take j <+: r'.ledger.entries) ∧
        (∀ f p', r'.refreshing = some (f, p') → f = fileLen ∧ front.length < p') := by
    intro r' k' front' d' rest' hk' hrun hrefreshing hlt hvisible hsplit' hrest' hentries'
    have hat' : At es k' front'.length := ⟨hk', front', rest', hsplit', rfl, hrest'⟩
    refine ⟨r', hrun, ⟨k', hentries', ?_⟩, fun hnone => ?_, fun f p' h => ?_⟩
    · rw [hrefreshing]
      refine ⟨hlen, hat', ?_⟩
      rw [hvisible, List.length_append]
      omega
    · rw [hrefreshing] at hnone
      exact nomatch hnone
    · rw [hrefreshing] at h
      obtain ⟨rfl, rfl⟩ := Prod.mk.inj (Option.some.inj h)
      exact ⟨rfl, hlt⟩
  obtain hrest | hrest := hrest
  · -- the line of entry `k`
    subst hrest
    have hlt : k < es.length := by
      by_contra hge
      have hdone : es.drop k = [] := List.drop_eq_nil_of_le (by omega)
      rw [hdone] at hd
      exact hnil (List.prefix_nil.mp hd)
    have he : es[k]? = some es[k] := List.getElem?_eq_getElem hlt
    have hline := hjson es[k] (List.getElem_mem hlt)
    have hcontinues : Continues r.ledger.entries es[k] := hentries ▸ hchain k es[k] he
    have htake : r.ledger.entries ++ [es[k]] = es.take (k + 1) := by
      rw [hentries, List.take_add_one, he]
      rfl
    rw [ledgerBytes_drop he] at hd hsplit
    have hno : newline ∉ toJson es[k] := fun h => (hline.oneLine newline h).1 rfl
    have hpos : 0 < (toJson es[k]).length := List.length_pos_iff.mpr hline.nonempty
    obtain ⟨d', rfl⟩ | hcut : (∃ d', d = toJson es[k] ++ newline :: d') ∨ d <+: toJson es[k] := by
      have hfront : toJson es[k] ++ [newline] <+:
          toJson es[k] ++ newline :: ledgerBytes (es.drop (k + 1)) :=
        (List.prefix_append_right_inj _).mpr (List.prefix_append [newline] _)
      obtain h | ⟨d', hd'⟩ := List.prefix_or_prefix_of_prefix hd hfront
      · obtain rfl | h := List.prefix_concat_iff.mp h
        · exact .inl ⟨[], rfl⟩
        · exact .inr h
      · exact .inl ⟨d', by rw [← hd', List.append_assoc, List.singleton_append]⟩
    · -- the whole line
      have hread : readLine ((front ++ (toJson es[k] ++ newline :: d')).drop front.length)
          = toJson es[k] ++ [newline] := by
        rw [hdrop]
        exact readLine_line hno d'
      refine hmove _ (k + 1) (front ++ (toJson es[k] ++ [newline])) d'
        (ledgerBytes (es.drop (k + 1))) hlt
        (refreshLine_entry hline hcontinues (.inr hread)) ?_ ?_ ?_ ?_ (.inl rfl) htake
      · simp only [hread, List.length_append]
      · rw [List.length_append, List.length_append]
        omega
      · simp only [List.append_assoc, List.singleton_append]
      · rw [hsplit]
        simp only [List.append_assoc, List.singleton_append]
    · by_cases hwhole : d = toJson es[k]
      · -- the whole entry without its newline
        subst hwhole
        have hread : readLine ((front ++ toJson es[k]).drop front.length) = toJson es[k] := by
          rw [hdrop]
          exact readLine_of_notMem hno
        refine hmove _ (k + 1) (front ++ toJson es[k]) []
          (newline :: ledgerBytes (es.drop (k + 1))) hlt
          (refreshLine_entry hline hcontinues (.inl hread)) ?_ ?_ ?_ ?_ (.inr rfl) htake
        · rw [hread, List.length_append]
        · rw [List.length_append]
          omega
        · rw [List.append_nil]
        · rw [hsplit, List.append_assoc]
      · -- a part of the entry
        have hpart := refreshLine_partial (r := r) hline (hdrop.symm ▸ hcut)
          (hdrop.symm ▸ hnil) (hdrop.symm ▸ hwhole) hlen
        refine hfinish hpart fun e he' => ?_
        obtain rfl := Option.some.inj (he.symm.trans he')
        have htake := hat.length_take.1
        have hsucc := length_ledgerBytes_take_succ he
        have hle := hcut.length_le
        rw [List.length_append] at hlen
        omega
  · -- the newline behind entry `k - 1`
    subst hrest
    obtain ⟨d', rfl⟩ : ∃ d', d = newline :: d' := by
      obtain rfl | ⟨d', rfl, -⟩ := List.prefix_cons_iff.mp hd
      · exact absurd rfl hnil
      · exact ⟨d', rfl⟩
    have hread : readLine ((front ++ newline :: d').drop front.length) = [newline] := by
      rw [hdrop]
      have hno : newline ∉ ([] : Bytes) := List.not_mem_nil
      exact readLine_line hno d'
    refine hmove _ k (front ++ [newline]) d' (ledgerBytes (es.drop k)) hk
      (refreshLine_newline hread) ?_ ?_ ?_ ?_ (.inl rfl) hentries
    · rw [List.length_append, List.length_singleton]
    · rw [List.length_append, List.length_singleton]
      omega
    · rw [List.append_assoc, List.singleton_append]
    · rw [List.append_assoc, List.singleton_append, hsplit]

end Round

/-! ## A whole refresh -/

/-- The head of a refresh never fails.  It ends the refresh only if the handle holds every
entry whose line is there. -/
theorem refreshStart_spec {es : List LedgerEntry} {data : Bytes} {r : Reader}
    (hidle : r.refreshing = none) (h : Holds es data r) :
    ∃ r', refreshStart (some data) r = .ok r' ∧ Holds es data r' ∧
      (r'.refreshing = none → ∀ j ≤ es.length,
        (ledgerBytes (es.take j)).length ≤ data.length → es.take j <+: r'.ledger.entries) ∧
      (∀ f p, r'.refreshing = some (f, p) → f = data.length ∧ p = r.ledger.loadedBytes) := by
  obtain ⟨k, hentries, hpos⟩ := h
  rw [hidle] at hpos
  obtain ⟨hat, hle⟩ := hpos
  unfold refreshStart
  simp only []
  rw [if_neg (by omega)]
  by_cases heq : data.length = r.ledger.loadedBytes
  · rw [if_pos heq]
    refine ⟨r, rfl, ⟨k, hentries, by rw [hidle]; exact ⟨hat, hle⟩⟩, fun _ j hj hjn => ?_,
      fun f p h => ?_⟩
    · rw [hentries]
      refine List.take_prefix_take_left (At.le_of_length_lt (fun e he => ?_) hj hjn)
      have htake := hat.length_take.1
      have hsucc := length_ledgerBytes_take_succ he
      omega
    · rw [hidle] at h
      exact nomatch h
  · rw [if_neg heq]
    refine ⟨_, rfl, ⟨k, hentries, Nat.le_refl _, hat, hle⟩, (fun h => nomatch h), fun f p h => ?_⟩
    obtain ⟨rfl, rfl⟩ := Prod.mk.inj (Option.some.inj h)
    exact ⟨rfl, rfl⟩

/-- The loop ends, and then the handle holds every entry whose line was there when the
refresh began. -/
theorem refreshLoop_spec {es : List LedgerEntry} {data : Bytes} (hjson : ∀ e ∈ es, JsonLine e)
    (hchain : Chained es) (hdata : data <+: ledgerBytes es) {fileLen : Nat} :
    ∀ {rounds p : Nat} {r : Reader}, Holds es data r → r.refreshing = some (fileLen, p) →
      data.length < p + rounds →
      ∃ r', refreshLoop data rounds r = .ok r' ∧ r'.refreshing = none ∧ Holds es data r' ∧
        ∀ j ≤ es.length, (ledgerBytes (es.take j)).length ≤ fileLen →
          es.take j <+: r'.ledger.entries := by
  intro rounds
  induction rounds with
  | zero =>
    intro p r h hrefreshing hrounds
    obtain ⟨k, -, hpos⟩ := h
    rw [hrefreshing] at hpos
    have := hpos.2.2
    omega
  | succ rounds ih =>
    intro p r h hrefreshing hrounds
    obtain ⟨k, hentries, hpos⟩ := h
    rw [hrefreshing] at hpos
    obtain ⟨hlen, hat, hp⟩ := hpos
    obtain ⟨r', hrun, hholds, hlast, hnext⟩ :=
      refreshLine_spec hjson hchain hdata hat hp hlen hentries
    have hloop : refreshLoop data (rounds + 1) r = refreshLoop data rounds r' := by
      rw [refreshLoop, hrefreshing]
      simp only [hrun]
      rfl
    rw [hloop]
    cases hr' : r'.refreshing with
    | none =>
      refine ⟨r', ?_, hr', hholds, hlast hr'⟩
      cases rounds with
      | zero => rfl
      | succ rounds => rw [refreshLoop, hr']
    | some x =>
      obtain ⟨f, p'⟩ := x
      obtain ⟨rfl, hlt⟩ := hnext f p' hr'
      exact ih hholds hr' (by omega)

/-- A refresh of a file that holds all lines ends with all entries. -/
theorem refresh_whole {es : List LedgerEntry} {r : Reader} (hjson : ∀ e ∈ es, JsonLine e)
    (hchain : Chained es) (hidle : r.refreshing = none) (h : Holds es (ledgerBytes es) r) :
    ∃ r', refresh (some (ledgerBytes es)) r = .ok r' ∧ r'.refreshing = none ∧
      r'.ledger.entries = es := by
  have hall : ∀ r' : Reader, Holds es (ledgerBytes es) r' →
      es.take es.length <+: r'.ledger.entries → r'.ledger.entries = es := by
    intro r' ⟨k, hentries, _⟩ hpre
    rw [List.take_length, hentries] at hpre
    rw [hentries]
    exact (List.take_prefix k es).eq_of_length_le hpre.length_le
  have hwhole : (ledgerBytes (es.take es.length)).length ≤ (ledgerBytes es).length := by
    rw [List.take_length]
  obtain ⟨r', hstart, hholds, hlast, hnext⟩ :=
    refreshStart_spec hidle h
  have hrefresh : refresh (some (ledgerBytes es)) r
      = refreshLoop (ledgerBytes es) ((ledgerBytes es).length + 1) r' := by
    unfold refresh
    rw [hstart]
    rfl
  rw [hrefresh]
  cases hr' : r'.refreshing with
  | none =>
    refine ⟨r', by rw [refreshLoop, hr'], hr', hall r' hholds ?_⟩
    exact hlast hr' es.length (Nat.le_refl _) hwhole
  | some x =>
    obtain ⟨f, p⟩ := x
    obtain ⟨rfl, rfl⟩ := hnext f p hr'
    have hrounds : (ledgerBytes es).length
        < r.ledger.loadedBytes + ((ledgerBytes es).length + 1) := by omega
    obtain ⟨r'', hloop, hdone, hholds', hlast'⟩ :=
      refreshLoop_spec hjson hchain (List.prefix_refl _) hholds hr' hrounds
    exact ⟨r'', hloop, hdone, hall r'' hholds' (hlast' es.length (Nat.le_refl _) hwhole)⟩

end Bytes

/-! ## The writer and its readers -/

structure LedgerSys where
  writer : CommittedLedger := {}
  /-- The bytes the writer has written. -/
  written : Bytes := []
  /-- The file as far as it is visible; `none` before it exists. -/
  file : Option Bytes := none
  readers : Nat → Reader := fun _ => {}

def LedgerSys.setReader (s : LedgerSys) (i : Nat) (r : Reader) : LedgerSys :=
  { s with readers := fun j => if j = i then r else s.readers j }

inductive LedgerAct where
  /-- A call of `append`, which may fail. -/
  | append (entry : LedgerEntry)
  /-- The first `n` bytes that were written are visible. -/
  | visible (n : Nat)
  /-- The head of a refresh of handle `i`, and a round of its loop. -/
  | start (i : Nat)
  | line (i : Nat)

section System

variable [LedgerText]

def LedgerAct.step : LedgerAct → LedgerSys → LedgerSys → Prop
  | .append entry, s, t =>
    match s.writer.append entry with
    | .ok (writer, bytes) => t = { s with writer, written := s.written ++ bytes }
    | .error _ => t = s
  | .visible n, s, t => (s.file.getD []).length ≤ n ∧ n ≤ s.written.length ∧
      t = { s with file := some (s.written.take n) }
  | .start i, s, t => (s.readers i).refreshing = none ∧
      ∃ r, refreshStart s.file (s.readers i) = .ok r ∧ t = s.setReader i r
  | .line i, s, t => ∃ data fileLen p r, s.file = some data ∧
      (s.readers i).refreshing = some (fileLen, p) ∧
      refreshLine data fileLen p (s.readers i) = .ok r ∧ t = s.setReader i r

/-- The entry as it is stored is one line of JSON. -/
def LedgerAct.Plain : LedgerAct → LedgerSys → Prop
  | .append entry, _ => JsonLine { entry with entrySha256 := entryHash entry }
  | _, _ => True

/-- The invariant. -/
structure LedgerSys.Ok (s : LedgerSys) : Prop where
  json : ∀ e ∈ s.writer.entries, JsonLine e
  chain : Chained s.writer.entries
  written : s.written = ledgerBytes s.writer.entries
  file : s.file.getD [] <+: s.written
  readers : ∀ i, Holds s.writer.entries (s.file.getD []) (s.readers i)
  exists_file : ∀ i, (s.readers i).refreshing ≠ none → s.file ≠ none

/-- A handle that holds its place still does when more is written and visible. -/
theorem Holds.grow {es : List LedgerEntry} {data data' : Bytes} {r : Reader}
    (h : Holds es data r) (hlen : data.length ≤ data'.length) : Holds es data' r := by
  obtain ⟨k, hentries, hpos⟩ := h
  refine ⟨k, hentries, ?_⟩
  cases hr : r.refreshing with
  | none =>
    rw [hr] at hpos
    exact ⟨hpos.1, Nat.le_trans hpos.2 hlen⟩
  | some x =>
    rw [hr] at hpos
    exact ⟨Nat.le_trans hpos.1 hlen, hpos.2.1, Nat.le_trans hpos.2.2 hlen⟩

theorem Holds.append {es : List LedgerEntry} {data : Bytes} {r : Reader} (h : Holds es data r)
    (e : LedgerEntry) : Holds (es ++ [e]) data r := by
  obtain ⟨k, hentries, hpos⟩ := h
  cases hr : r.refreshing with
  | none =>
    rw [hr] at hpos
    refine ⟨k, ?_, ?_⟩
    · rw [hentries, List.take_append_of_le_length hpos.1.1]
    · rw [hr]
      exact ⟨hpos.1.append e, hpos.2⟩
  | some x =>
    rw [hr] at hpos
    refine ⟨k, ?_, ?_⟩
    · rw [hentries, List.take_append_of_le_length hpos.2.1.1]
    · rw [hr]
      exact ⟨hpos.1, hpos.2.1.append e, hpos.2.2⟩

namespace LedgerSys.Ok

variable {s t : LedgerSys}

theorem init : LedgerSys.Ok {} where
  json := fun _ h => nomatch h
  chain := fun _ _ h => nomatch h
  written := rfl
  file := List.prefix_refl _
  readers := fun _ => ⟨0, rfl, At.zero [], Nat.le_refl 0⟩
  exists_file := fun _ h => absurd rfl h

/-- One handle has moved. -/
theorem setReader (h : s.Ok) {i : Nat} {r : Reader}
    (hr : Holds s.writer.entries (s.file.getD []) r)
    (hfile : r.refreshing ≠ none → s.file ≠ none) : (s.setReader i r).Ok where
  json := h.json
  chain := h.chain
  written := h.written
  file := h.file
  readers := by
    intro j
    show Holds _ _ (if j = i then r else s.readers j)
    by_cases hj : j = i
    · rw [if_pos hj]
      exact hr
    · rw [if_neg hj]
      exact h.readers j
  exists_file := by
    intro j
    show (if j = i then r else s.readers j).refreshing ≠ none → s.file ≠ none
    by_cases hj : j = i
    · rw [if_pos hj]
      exact hfile
    · rw [if_neg hj]
      exact h.exists_file j

theorem append (h : s.Ok) {entry : LedgerEntry} (hplain : (LedgerAct.append entry).Plain s)
    (hstep : (LedgerAct.append entry).step s t) : t.Ok := by
  have hstep' : match s.writer.append entry with
      | .ok (writer, bytes) => t = { s with writer, written := s.written ++ bytes }
      | .error _ => t = s := hstep
  cases happend : s.writer.append entry with
  | error e =>
    rw [happend] at hstep'
    exact hstep' ▸ h
  | ok x =>
    obtain ⟨writer, bytes⟩ := x
    rw [happend] at hstep'
    obtain ⟨hcontinues, rfl, rfl⟩ := append_eq_ok happend
    obtain rfl := hstep'
    refine ⟨fun e he => ?_, h.chain.append hcontinues, ?_, ?_, fun i => (h.readers i).append _,
      h.exists_file⟩
    · rw [List.mem_append, List.mem_singleton] at he
      obtain he | rfl := he
      · exact h.json e he
      · exact hplain
    · show s.written ++ _ = _
      rw [h.written, ledgerBytes_append, ledgerBytes_singleton]
    · exact h.file.trans (List.prefix_append _ _)

theorem visible (h : s.Ok) {n : Nat} (hstep : (LedgerAct.visible n).step s t) : t.Ok := by
  obtain ⟨hgrow, hn, rfl⟩ := hstep
  have hlen : (s.file.getD []).length ≤ (s.written.take n).length := by
    rw [List.length_take]
    omega
  exact ⟨h.json, h.chain, h.written, List.take_prefix n s.written,
    fun i => (h.readers i).grow hlen, fun _ _ hnone => nomatch hnone⟩

/-- The head of a refresh does not fail. -/
theorem start (h : s.Ok) {i : Nat} (hidle : (s.readers i).refreshing = none) :
    ∃ r, refreshStart s.file (s.readers i) = .ok r ∧ (s.setReader i r).Ok := by
  cases hfile : s.file with
  | none =>
    refine ⟨s.readers i, rfl, h.setReader (h.readers i) fun hno => absurd hidle hno⟩
  | some data =>
    have hholds := h.readers i
    rw [hfile] at hholds
    obtain ⟨r, hrun, hr, -, -⟩ := refreshStart_spec hidle hholds
    refine ⟨r, hrun, h.setReader (by rw [hfile]; exact hr) fun _ => ?_⟩
    rw [hfile]
    exact Option.some_ne_none data

/-- Nor does a round; and the last round of a refresh leaves the handle with every entry
whose line was visible when the refresh began. -/
theorem line (h : s.Ok) {i fileLen p : Nat} {data : Bytes} (hfile : s.file = some data)
    (hreading : (s.readers i).refreshing = some (fileLen, p)) :
    ∃ r, refreshLine data fileLen p (s.readers i) = .ok r ∧ (s.setReader i r).Ok ∧
      (r.refreshing = none → ∀ j ≤ s.writer.entries.length,
        (ledgerBytes (s.writer.entries.take j)).length ≤ fileLen →
          s.writer.entries.take j <+: r.ledger.entries) := by
  have hvisible : data <+: ledgerBytes s.writer.entries := by
    have := h.file
    rw [hfile, h.written] at this
    exact this
  obtain ⟨k, hentries, hpos⟩ := h.readers i
  rw [hreading, hfile] at hpos
  obtain ⟨hlen, hat, hp⟩ := hpos
  obtain ⟨r, hrun, hr, hlast, -⟩ :=
    refreshLine_spec h.json h.chain hvisible hat hp hlen hentries
  refine ⟨r, hrun, h.setReader (by rw [hfile]; exact hr) fun _ => ?_, hlast⟩
  rw [hfile]
  exact Option.some_ne_none data

theorem step (h : s.Ok) {a : LedgerAct} (hplain : a.Plain s) (hstep : a.step s t) : t.Ok := by
  cases a with
  | append entry => exact h.append hplain hstep
  | visible n => exact h.visible hstep
  | start i =>
    obtain ⟨hidle, r, hrun, rfl⟩ := hstep
    obtain ⟨r', hrun', hok⟩ := h.start hidle
    obtain rfl := Except.ok.inj (hrun.symm.trans hrun')
    exact hok
  | line i =>
    obtain ⟨data, fileLen, p, r, hfile, hreading, hrun, rfl⟩ := hstep
    obtain ⟨r', hrun', hok, -⟩ := h.line hfile hreading
    obtain rfl := Except.ok.inj (hrun.symm.trans hrun')
    exact hok

theorem run (h : GuardedRun LedgerAct.step LedgerAct.Plain {} s) : s.Ok :=
  h.invariant (fun _ _ _ hplain hstep hok => hok.step hplain hstep) init

end LedgerSys.Ok

/-- **Readers under a writer.**  Whatever the writer appends, and however its bytes
become visible between the steps of the readers: neither the head nor a round of a
refresh fails; a handle holds the first of the entries that were written; a refresh ends
with every entry whose line was visible when it began; and one that is made when all
bytes are visible ends with all entries. -/
theorem ledger_readers {s : LedgerSys} (h : GuardedRun LedgerAct.step LedgerAct.Plain {} s)
    (i : Nat) :
    ((s.readers i).refreshing = none → ∃ r, refreshStart s.file (s.readers i) = .ok r) ∧
      (∀ fileLen p, (s.readers i).refreshing = some (fileLen, p) → ∃ data r,
        s.file = some data ∧ refreshLine data fileLen p (s.readers i) = .ok r ∧
          (r.refreshing = none → ∀ j ≤ s.writer.entries.length,
            (ledgerBytes (s.writer.entries.take j)).length ≤ fileLen →
              s.writer.entries.take j <+: r.ledger.entries)) ∧
      (s.readers i).ledger.entries <+: s.writer.entries ∧
      ((s.readers i).refreshing = none → s.file = some s.written →
        ∃ r, refresh s.file (s.readers i) = .ok r ∧ r.refreshing = none ∧
          r.ledger.entries = s.writer.entries) := by
  have hok := LedgerSys.Ok.run h
  refine ⟨fun hidle => ?_, fun fileLen p hreading => ?_, ?_, fun hidle hfile => ?_⟩
  · obtain ⟨r, hrun, -⟩ := hok.start hidle
    exact ⟨r, hrun⟩
  · have hexists : s.file ≠ none := hok.exists_file i (by rw [hreading]; exact Option.some_ne_none _)
    obtain ⟨data, hfile⟩ := Option.ne_none_iff_exists'.mp hexists
    obtain ⟨r, hrun, -, hlast⟩ := hok.line hfile hreading
    exact ⟨data, r, hfile, hrun, hlast⟩
  · obtain ⟨k, hentries, -⟩ := hok.readers i
    rw [hentries]
    exact List.take_prefix k _
  · have hholds := hok.readers i
    rw [hfile, hok.written] at hholds
    rw [hfile, hok.written]
    exact refresh_whole hok.json hok.chain hidle hholds

end System

/-! ## A run -/

/-- The JSON of an entry whose strings need no escapes. -/
def plainJson (e : LedgerEntry) : Bytes :=
  ("\x7b\"sequence\":" ++ toString e.sequence ++ ",\"xid\":" ++ toString e.xid ++
    ",\"source_lsn\":" ++ toString e.sourceLsn ++ ",\"operation_sha256\":\"" ++
    e.operationSha256 ++ "\",\"committed_unix_ms\":" ++ toString e.committedUnixMs ++
    ",\"previous_entry_sha256\":\"" ++ e.previousEntrySha256 ++ "\",\"entry_sha256\":\"" ++
    e.entrySha256 ++ "\"\x7d").toUTF8.toList

def firstEntry : LedgerEntry where
  sequence := 1
  xid := 9001
  sourceLsn := 101
  operationSha256 := "0000000000000000000000000000000000000000000000000000000000000001"
  committedUnixMs := 1
  previousEntrySha256 := ""
  entrySha256 := "82328f7656cf7f4eac967838f52060d19d4f77651c20dc4d3f35bf48552408c5"

/-- JSON and SHA-256 of the first entry. -/
@[reducible] def firstText : LedgerText where
  toJson := plainJson
  fromJson b := if b = plainJson firstEntry then some firstEntry else none
  sha256Hex _ := firstEntry.entrySha256

/-- The first 40 bytes of an entry are visible when a refresh begins. -/
theorem ledger_readers_partial :
    letI := firstText
    ∃ s, GuardedRun LedgerAct.step LedgerAct.Plain {} s ∧
      (s.readers 0).refreshing = some (40, 0) ∧
      ((s.readers 0).refreshing = none → ∃ r, refreshStart s.file (s.readers 0) = .ok r) ∧
      (∀ fileLen p, (s.readers 0).refreshing = some (fileLen, p) → ∃ data r,
        s.file = some data ∧ refreshLine data fileLen p (s.readers 0) = .ok r ∧
          (r.refreshing = none → ∀ j ≤ s.writer.entries.length,
            (ledgerBytes (s.writer.entries.take j)).length ≤ fileLen →
              s.writer.entries.take j <+: r.ledger.entries)) ∧
      (s.readers 0).ledger.entries <+: s.writer.entries ∧
      ((s.readers 0).refreshing = none → s.file = some s.written →
        ∃ r, refresh s.file (s.readers 0) = .ok r ∧ r.refreshing = none ∧
          r.ledger.entries = s.writer.entries) := by
  let _ := firstText
  have hline : JsonLine firstEntry := by
    refine ⟨?_, ?_, ?_, ?_, fun p _ hne _ => if_neg hne⟩
    · show plainJson firstEntry ≠ []
      decide +kernel
    · show ∀ b ∈ plainJson firstEntry, b < 0x80
      decide +kernel
    · show ∀ b ∈ plainJson firstEntry, b ≠ newline ∧ b ≠ 0x0D
      decide +kernel
    · exact if_pos rfl
  let s₁ : LedgerSys :=
    { writer := { entries := [firstEntry] }, written := plainJson firstEntry ++ [newline] }
  let s₂ : LedgerSys := { s₁ with file := some (s₁.written.take 40) }
  let s₃ : LedgerSys := s₂.setReader 0 { refreshing := some (40, 0) }
  have h₁ : (LedgerAct.append firstEntry).step {} s₁ := rfl
  have h₂ : (LedgerAct.visible 40).step s₁ s₂ := by
    refine ⟨Nat.zero_le _, ?_, rfl⟩
    show 40 ≤ (plainJson firstEntry ++ [newline]).length
    decide +kernel
  have h₃ : (LedgerAct.start 0).step s₂ s₃ := by
    refine ⟨rfl, _, ?_, rfl⟩
    show refreshStart (some ((plainJson firstEntry ++ [newline]).take 40)) {} = _
    decide +kernel
  have hplain₂ : (LedgerAct.visible 40).Plain s₁ := trivial
  have hplain₃ : (LedgerAct.start 0).Plain s₂ := trivial
  have hplain₁ : (LedgerAct.append firstEntry).Plain {} := hline
  have hrun : GuardedRun LedgerAct.step LedgerAct.Plain {} s₃ :=
    (((GuardedRun.refl {}).tail hplain₁ h₁).tail hplain₂ h₂).tail hplain₃ h₃
  exact ⟨s₃, hrun, rfl, ledger_readers hrun 0⟩

end GrayDB.R1
