import GrayDB.R1.Control
import GrayDB.Registry.Replay

/-!
# Which frames are commits

Three tasks write frames: the pump of the ingest crate, the control stream and the CDC task
of ClickHouse.  Each looks at the raw payload to tell a Commit, and takes the end position
from fixed offsets.  The decoder reads the same payload through a cursor later.

* `commitEnd_of_parse`: a payload that parses is a Commit for the decoder exactly if the
  recogniser says so, with the same end position.  Only `parseCommit` makes a Commit
  (`Other` holds of the other readers), and it reads what the recogniser asks for.
* `commits_recognised` says it for the three recognisers and for the frames of each task.
-/

namespace GrayDB.Ingest

open Lib Log Registry Registry.Reader R1.ControlState

/-- The recogniser of the pump. -/
def commitEndLsn (payload : Bytes) : Option UInt64 :=
  if payload.length ≥ 26 ∧ payload.getD 0 0 = 0x43 then
    some (UInt64.ofNat (beNat ((payload.drop 10).take 8)))
  else none

/-- The recogniser of the CDC task. -/
def pgoutputCommitLsn (payload : Bytes) : Option UInt64 :=
  if payload.length ≥ 26 ∧ payload.head? = some 0x43 then
    some (UInt64.ofNat (beNat ((payload.drop 10).take 8)))
  else none

/-- What all three tasks append for a payload, with the recogniser of the task. -/
def taskFrame (recogniser : Bytes → Option UInt64) (seq : Nat) (walStart : UInt64)
    (payload : Bytes) : Frame where
  seq := seq
  lsnStart := walStart.toNat
  lsnEnd := ((recogniser payload).getD walStart).toNat
  txnComplete := (recogniser payload).isSome
  payload := payload

/-! ## The parser -/

/-- A sequence that has read something has read its first half. -/
theorem bind_eq_ok {α β : Type} {p : Reader α} {q : α → Reader β} {b : Bytes} {r : β × Bytes}
    (h : (p >>= q) b = .ok r) : ∃ a b', p b = .ok (a, b') ∧ q a b' = .ok r := by
  change (p b >>= fun x => q x.1 x.2) = _ at h
  cases hp : p b with
  | error e =>
    rw [hp] at h
    exact nomatch h
  | ok x =>
    rw [hp] at h
    exact ⟨x.1, x.2, rfl, h⟩

theorem getUInt_eq_ok {w n : Nat} {b b' : Bytes} (h : getUInt w b = .ok (n, b')) :
    w ≤ b.length ∧ n = beNat (b.take w) ∧ b' = b.drop w := by
  rw [getUInt] at h
  split_ifs at h with hshort
  obtain ⟨rfl, rfl⟩ := Prod.mk.inj (Except.ok.inj h)
  exact ⟨Nat.le_of_not_lt hshort, rfl, rfl⟩

/-- A reader that never makes a Commit. -/
def Other (p : Reader Message) : Prop :=
  ∀ b m rest, p b = .ok (m, rest) → m.commitEnd = none

theorem other_pure {m : Message} (h : m.commitEnd = none) : Other (pure m) := by
  intro b m' rest heq
  obtain ⟨rfl, -⟩ := Prod.mk.inj (Except.ok.inj heq)
  exact h

theorem other_fail (e : ParseError) : Other (fail e) := fun _ _ _ h => nomatch h

/-- Whatever was read before. -/
theorem other_bind {α : Type} (p : Reader α) {q : α → Reader Message} (h : ∀ a, Other (q a)) :
    Other (p >>= q) := by
  intro b m rest heq
  obtain ⟨a, b', -, hq⟩ := bind_eq_ok heq
  exact h a b' m rest hq

theorem other_ite {c : Prop} [Decidable c] {p q : Reader Message} (hp : Other p) (hq : Other q) :
    Other (if c then p else q) := by
  split_ifs
  · exact hp
  · exact hq

/-- Every tag but that of a Commit. -/
theorem other_parseBody {tag : UInt8} (htag : tag ≠ 0x43) : Other (parseBody tag) := by
  unfold parseBody
  rw [if_neg htag]
  refine other_ite ?begin (other_ite ?origin (other_ite ?relation (other_ite ?type (other_ite ?insert
    (other_ite ?update (other_ite ?delete (other_ite ?truncate (other_ite ?logical
      (other_fail _)))))))))
  case begin | origin | relation | type | truncate | logical =>
    all_goals
      repeat' first
        | exact other_pure rfl
        | refine other_bind _ fun _ => ?_
  case insert =>
    refine other_bind _ fun _ => other_bind _ fun _ => other_ite ?_ (other_fail _)
    exact other_bind _ fun _ => other_pure rfl
  case update =>
    refine other_bind _ fun _ => other_bind _ fun old => ?_
    exact other_ite (other_bind _ fun _ => other_pure rfl) (other_fail _)
  case delete =>
    refine other_bind _ fun _ => other_bind _ fun _ => other_ite ?_ (other_fail _)
    exact other_bind _ fun _ => other_pure rfl

/-- What the parser reads of a Commit: it needs all 25 bytes behind the tag, and `end_lsn` is
behind the flags and the commit position. -/
theorem parseCommit_eq_ok {b rest : Bytes} {m : Message} (h : parseCommit b = .ok (m, rest)) :
    25 ≤ b.length ∧ m.commitEnd = some (beNat ((b.drop 9).take 8)) := by
  obtain ⟨flags, b1, hflags, h⟩ := bind_eq_ok h
  obtain ⟨commitLsn, b2, hcommit, h⟩ := bind_eq_ok h
  obtain ⟨endLsn, b3, hend, h⟩ := bind_eq_ok h
  obtain ⟨commitTs, b4, htime, h⟩ := bind_eq_ok h
  obtain ⟨rfl, -⟩ := Prod.mk.inj (Except.ok.inj h)
  obtain ⟨micros, b5, hmicros, -⟩ := bind_eq_ok htime
  cases b with
  | nil => exact nomatch hflags
  | cons x b =>
    obtain ⟨-, rfl⟩ := Prod.mk.inj (Except.ok.inj hflags)
    obtain ⟨hlen1, -, rfl⟩ := getUInt_eq_ok hcommit
    obtain ⟨hlen2, rfl, rfl⟩ := getUInt_eq_ok hend
    obtain ⟨hlen3, -, -⟩ := getUInt_eq_ok hmicros
    rw [List.length_drop] at hlen2
    rw [List.length_drop, List.length_drop] at hlen3
    refine ⟨?_, rfl⟩
    rw [List.length_cons]
    omega

/-- A payload that parses is a Commit for the decoder exactly if the control stream says so. -/
theorem commitEnd_of_parse {payload : Bytes} {m : Message} (h : parse payload = .ok m) :
    (pgoutputCommitEndLsn payload).map UInt64.toNat = m.commitEnd := by
  cases payload with
  | nil => exact nomatch h
  | cons tag b =>
    obtain ⟨⟨m', rest⟩, hbody, rfl⟩ : ∃ r, parseBody tag b = .ok r ∧ r.1 = m := by
      rw [parse] at h
      cases hbody : parseBody tag b with
      | error e =>
        rw [hbody] at h
        exact nomatch h
      | ok r =>
        rw [hbody] at h
        exact ⟨r, rfl, Except.ok.inj h⟩
    by_cases htag : tag = 0x43
    · subst htag
      obtain ⟨hlen, hend⟩ := parseCommit_eq_ok hbody
      have hbound : beNat ((b.drop 9).take 8) < 2 ^ 64 := by
        refine Nat.lt_of_lt_of_le (beNat_lt _) ?_
        exact Nat.pow_le_pow_right (by decide) (List.length_take_le 8 _)
      rw [hend, pgoutputCommitEndLsn, if_pos ⟨Nat.succ_le_succ hlen, rfl⟩, Option.map_some]
      exact congrArg some (UInt64.toNat_ofNat_of_lt' hbound)
    · rw [other_parseBody htag b m' rest hbody, pgoutputCommitEndLsn,
        if_neg fun hand => htag (Option.some.inj hand.2)]
      rfl

/-! ## The recognisers -/

theorem commitEndLsn_eq (payload : Bytes) : commitEndLsn payload = pgoutputCommitEndLsn payload := by
  have hfirst : payload.length ≥ 26 →
      (payload.getD 0 0 = 0x43 ↔ payload.head? = some (0x43 : UInt8)) := by
    intro hlen
    cases payload with
    | nil => exact absurd hlen (by decide)
    | cons tag b => simp
  rw [commitEndLsn, pgoutputCommitEndLsn]
  exact if_congr (and_congr_right hfirst) rfl rfl

/-- What the log says about a payload is what the decoder will see in it. -/
def Marked (f : Frame) : Prop :=
  f.txnComplete = (commitEnd f).isSome ∧ ∀ e, commitEnd f = some e → f.lsnEnd = e

theorem marked_taskFrame {recogniser : Bytes → Option UInt64} {payload : Bytes} {m : Message}
    (hsame : recogniser payload = pgoutputCommitEndLsn payload) (hparse : parse payload = .ok m)
    (seq : Nat) (walStart : UInt64) : Marked (taskFrame recogniser seq walStart payload) := by
  have hend : commitEnd (taskFrame recogniser seq walStart payload)
      = (recogniser payload).map UInt64.toNat := by
    rw [hsame, commitEnd_of_parse hparse]
    have hpayload : (taskFrame recogniser seq walStart payload).payload = payload := rfl
    rw [commitEnd, hpayload, hparse]
  rw [Marked, hend, Option.isSome_map]
  refine ⟨rfl, fun e he => ?_⟩
  obtain ⟨lsn, hlsn, rfl⟩ := Option.map_eq_some_iff.mp he
  show ((recogniser payload).getD walStart).toNat = lsn.toNat
  rw [hlsn]
  rfl

/-- **Commits are recognised alike.**  The three recognisers agree on every payload, and on
one that parses they say what the decoder sees, so the frames of all three tasks are marked
right. -/
theorem commits_recognised (payload : Bytes) :
    commitEndLsn payload = pgoutputCommitEndLsn payload ∧
      pgoutputCommitLsn payload = pgoutputCommitEndLsn payload ∧
      ∀ m, parse payload = .ok m →
        (∀ e, pgoutputCommitEndLsn payload = some e ↔
          ∃ flags commitLsn commitTs, m = .commit flags commitLsn e.toNat commitTs) ∧
        ∀ seq walStart, Marked (taskFrame commitEndLsn seq walStart payload) ∧
          Marked (taskFrame pgoutputCommitEndLsn seq walStart payload) ∧
          Marked (taskFrame pgoutputCommitLsn seq walStart payload) := by
  refine ⟨commitEndLsn_eq payload, rfl, fun m hparse => ⟨fun e => ?_, fun seq walStart => ?_⟩⟩
  · have hend := commitEnd_of_parse hparse
    constructor
    · intro he
      rw [he] at hend
      cases m with
      | commit flags commitLsn endLsn commitTs =>
        exact ⟨flags, commitLsn, commitTs, by rw [Option.some.inj hend]⟩
      | _ => exact nomatch hend
    · rintro ⟨flags, commitLsn, commitTs, rfl⟩
      obtain ⟨lsn, hlsn, heq⟩ := Option.map_eq_some_iff.mp hend
      rw [hlsn, UInt64.toNat_inj.mp heq]
  · exact ⟨marked_taskFrame (commitEndLsn_eq payload) hparse seq walStart,
      marked_taskFrame rfl hparse seq walStart, marked_taskFrame rfl hparse seq walStart⟩

/-- A Commit whose end is at 9, and a Begin. -/
theorem commits_recognised_two :
    pgoutputCommitEndLsn (commitMessage 9) = some 9 ∧
      Marked (taskFrame commitEndLsn 3 0 (commitMessage 9)) ∧
      ∀ e, pgoutputCommitEndLsn (beginMessage 9 1) ≠ some e := by
  obtain ⟨-, -, hcommit⟩ := commits_recognised (commitMessage 9)
  obtain ⟨-, -, hbegin⟩ := commits_recognised (beginMessage 9 1)
  obtain ⟨hsome, hframes⟩ := hcommit (.commit 0 9 9 0) (by decide +kernel)
  refine ⟨(hsome 9).mpr ⟨0, 9, 0, rfl⟩, (hframes 3 0).1, fun e he => ?_⟩
  obtain ⟨_, _, _, hmsg⟩ := ((hbegin (.begin 9 0 1) (by decide +kernel)).1 e).mp he
  exact nomatch hmsg

end GrayDB.Ingest
