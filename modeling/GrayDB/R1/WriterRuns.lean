import GrayDB.Lib.Guarded
import GrayDB.R1.LedgerReaders
import GrayDB.R1.Writer

/-!
# Runs of the application writer

* `run_executes` is about whole runs.  The first iteration has no pending chunk, so exec has
  no results, and the hand-over pairs the new chunk with them: nothing is pending but an
  empty chunk, then and ever after (`Idle`).  A run that returns has executed what it
  recorded only if it was stopped before it began.
* `iteration_exact` is about one iteration with any chunk, any failures and any delays.  The
  ledger gains exactly what the source has committed, provided no transaction commits after
  its plan was given up.
-/

namespace GrayDB.R1

open Lib

/-- What a ledger entry says about a commit. -/
def LedgerEntry.commit (e : LedgerEntry) : LedgerCommit where
  sequence := e.sequence
  xid := e.xid
  sourceLsn := e.sourceLsn
  operationSha256 := e.operationSha256

namespace WriterState

/-! ## Whole runs -/

/-- The source has committed exactly the plans whose intents were recorded, in sequence, and
the ledger has gained exactly their entries. -/
structure Executes (ledger : CommittedLedger) (s : WriterState) : Prop where
  committed : s.committed.map (fun c => (c.sequence, c.operationSha256))
    = s.intents.map fun plan => (plan.sequence, plan.operationSha256)
  sequences : s.intents.map TransactionPlan.sequence
    = List.range' (GrayDB.R1.nextSequence ledger.entries) s.intents.length
  ledger : ∃ entries, s.ledger.entries = ledger.entries ++ entries ∧
    entries.map LedgerEntry.commit = s.committed

/-- A run that has begun with `stop` not set: nothing is ever sent. -/
structure Idle (ledger : CommittedLedger) (s : WriterState) : Prop where
  issued : s.issued = []
  committed : s.committed = []
  pending : s.iteration = none → s.result = none → s.pending = some []
  handed : s.pending = none ∨ s.pending = some []
  iteration : ∀ it, s.iteration = some it → it.plans = [] ∧ it.map.plans = [] ∧
    it.map.waiting = .head ∧ (it.executed = none ∨ it.executed = some []) ∧
    (it.lastIteration = true ∨ it.chunk ≠ [] → s.intents ≠ [])
  recorded : s.pending = some [] ∨ s.result = some (.ok ()) → s.intents ≠ []

section Whole

variable {ledger : CommittedLedger} {s s' : WriterState} {it : Iteration}

theorem Idle.fail (h : Idle ledger s) (e : WriterError) : Idle ledger (s.fail e) where
  issued := h.issued
  committed := h.committed
  pending := fun _ hresult => nomatch hresult
  handed := h.handed
  iteration := fun _ hit => nomatch hit
  recorded := fun hor => hor.elim (fun hpending => h.recorded (.inl hpending)) fun hresult =>
    nomatch hresult

/-- There is nothing to be committed. -/
theorem Idle.commit (h : Idle ledger s) {c : LedgerCommit} (hstep : s.commit c = some s') :
    Idle ledger s' := by
  unfold WriterState.commit at hstep
  rw [h.issued] at hstep
  rw [if_neg (by simp)] at hstep
  exact nomatch hstep

theorem Idle.head (h : Idle ledger s) (hnone : s.iteration = none) (hresult : s.result = none)
    (stop : Bool) : Idle ledger (s.head stop) := by
  have hpending := h.pending hnone hresult
  unfold WriterState.head
  rw [hpending, if_pos (.inl rfl)]
  exact {
    issued := by rw [h.issued]; rfl
    committed := h.committed
    pending := fun hno => nomatch hno
    handed := .inr rfl
    iteration := fun it hit => by
      obtain rfl := Option.some.inj hit
      exact ⟨rfl, rfl, rfl, .inl rfl, fun _ => h.recorded (.inl hpending)⟩
    recorded := fun _ => h.recorded (.inl hpending) }

theorem Idle.results (h : Idle ledger s) (hit : s.iteration = some it) {rs : List StatementResult}
    (hstep : s.results rs it = some s') : Idle ledger s' := by
  obtain ⟨hplans, hmap, hwaiting, -, hrecorded⟩ := h.iteration it hit
  unfold WriterState.results at hstep
  split at hstep
  · obtain rfl := Option.some.inj hstep
    exact {
      issued := h.issued
      committed := h.committed
      pending := fun hno => nomatch hno
      handed := h.handed
      iteration := fun it' hit' => by
        obtain rfl := Option.some.inj hit'
        refine ⟨hplans, hmap, hwaiting, .inr ?_, hrecorded⟩
        show some (planResults it.plans rs) = some []
        rw [hplans]
        rfl
      recorded := h.recorded }
  · exact nomatch hstep

theorem Idle.fill (h : Idle ledger s) (hit : s.iteration = some it) {targetRate : Nat}
    {planner : Nat → TransactionPlan} (hstep : s.fill targetRate planner it = some s') :
    Idle ledger s' := by
  obtain ⟨hplans, hmap, hwaiting, hexecuted, -⟩ := h.iteration it hit
  unfold WriterState.fill at hstep
  split at hstep
  · simp only [] at hstep
    split at hstep
    · obtain rfl := Option.some.inj hstep
      exact h.fail _
    · obtain rfl := Option.some.inj hstep
      have hne : ∀ p, s.intents ++ [p] ≠ [] := fun p => by simp
      exact {
        issued := h.issued
        committed := h.committed
        pending := fun hno => nomatch hno
        handed := h.handed
        iteration := fun it' hit' => by
          obtain rfl := Option.some.inj hit'
          exact ⟨hplans, hmap, hwaiting, hexecuted, fun _ => hne _⟩
        recorded := fun _ => hne _ }
  · exact nomatch hstep

/-- The hand-over pairs the chunk with no results. -/
theorem Idle.join (h : Idle ledger s) (hit : s.iteration = some it) {targetRate : Nat}
    (hstep : s.join targetRate it = some s') : Idle ledger s' := by
  obtain ⟨hplans, -, -, hexecuted, hrecorded⟩ := h.iteration it hit
  unfold WriterState.join at hstep
  rcases hexecuted with hnone | hdone
  · rw [hnone] at hstep
    exact nomatch hstep
  · rw [hdone] at hstep
    simp only [] at hstep
    split at hstep
    · rename_i hall
      rw [hplans] at hstep
      simp only [List.zip_nil_left, crossVerify] at hstep
      split at hstep
      · rename_i hlast
        obtain rfl := Option.some.inj hstep
        exact {
          issued := h.issued
          committed := h.committed
          pending := fun _ hresult => nomatch hresult
          handed := h.handed
          iteration := fun _ hno => nomatch hno
          recorded := fun _ => hrecorded (.inl hlast) }
      · rename_i hlast
        obtain rfl := Option.some.inj hstep
        have hchunk : it.chunk ≠ [] := by
          intro hnil
          have hlen := hall.2.2
          have hwanted : wanted targetRate it = chunkSize targetRate := if_neg hlast
          rw [hnil, hwanted] at hlen
          unfold chunkSize at hlen
          simp only [List.length_nil] at hlen
          omega
        exact {
          issued := h.issued
          committed := h.committed
          pending := fun _ _ => congrArg some List.zip_nil_right
          handed := .inr (congrArg some List.zip_nil_right)
          iteration := fun _ hno => nomatch hno
          recorded := fun _ => hrecorded (.inr hchunk) }
    · exact nomatch hstep

variable [LedgerText] {targetRate : Nat} {planner : Nat → TransactionPlan}

theorem Idle.step (a : WriterAct) (hstep : step targetRate planner a s s') (h : Idle ledger s) :
    Idle ledger s' := by
  unfold WriterState.step WriterState.play at hstep
  cases hit : s.iteration with
  | none =>
    rw [hit] at hstep
    cases a with
    | commit c => exact h.commit hstep
    | head stop =>
      simp only [] at hstep
      split at hstep
      · rename_i hresult
        obtain rfl := Option.some.inj hstep
        exact h.head hit hresult stop
      · exact nomatch hstep
    | _ => exact nomatch hstep
  | some it =>
    obtain ⟨-, hmap, hwaiting, -, -⟩ := h.iteration it hit
    rw [hit] at hstep
    cases a with
    | commit c => exact h.commit hstep
    | head stop => exact nomatch hstep
    | results rs => exact h.results hit hstep
    | fill => exact h.fill hit hstep
    | join => exact h.join hit hstep
    -- the map part has no plan
    | next now => simp [WriterState.next, hmap] at hstep
    | deliver now => simp [WriterState.deliver, hwaiting] at hstep
    | timeout => simp [WriterState.timeout, hwaiting] at hstep
    | closed => simp [WriterState.closed, hwaiting] at hstep
    | query => simp [WriterState.query, hwaiting] at hstep
    | queryFails => simp [WriterState.queryFails, hwaiting] at hstep

omit [LedgerText] in
/-- The first iteration, when `stop` is not set. -/
theorem idle_begin (ledger : CommittedLedger) : Idle ledger ((start ledger).head false) where
  issued := rfl
  committed := rfl
  pending := fun hno => nomatch hno
  handed := .inl rfl
  iteration := fun it hit => by
    obtain rfl := Option.some.inj hit
    exact ⟨rfl, rfl, rfl, .inl rfl,
      fun hor => hor.elim (fun h => nomatch h) fun h => absurd rfl h⟩
  recorded := fun hor => hor.elim (fun h => nomatch h) fun h => nomatch h

/-- A run that was stopped before it began has returned, and nothing more happens. -/
theorem step_stopped {a : WriterAct}
    (hstep : step targetRate planner a ((start ledger).head true) s') : False := by
  unfold WriterState.step WriterState.play at hstep
  cases a with
  | commit c => simp [WriterState.commit, WriterState.head, start] at hstep
  | _ => exact nomatch hstep

/-- A run that returns has executed what it recorded if and only if `stop` was set when it
looked first. -/
theorem run_executes {stop : Bool} {s₁ : WriterState}
    (hfirst : step targetRate planner (.head stop) (start ledger) s₁)
    (hrun : Run (step targetRate planner) s₁ s) (hok : s.result = some (.ok ())) :
    Executes ledger s ↔ stop = true := by
  obtain rfl : (start ledger).head stop = s₁ := Option.some.inj hfirst
  cases stop with
  | true =>
    have hsame : s = (start ledger).head true := by
      have hsteps : ∀ (a : WriterAct) (t t' : WriterState), True → step targetRate planner a t t' →
          t = (start ledger).head true → t' = (start ledger).head true :=
        fun a t t' _ hstep heq => (step_stopped (heq ▸ hstep)).elim
      have hstopped := GuardedRun.invariant hsteps hrun rfl
      exact hstopped
    refine ⟨fun _ => rfl, fun _ => ?_⟩
    rw [hsame]
    exact ⟨rfl, rfl, [], (List.append_nil _).symm, rfl⟩
  | false =>
    have hidle : Idle ledger s :=
      GuardedRun.invariant (fun a _ _ _ hstep h => h.step a hstep) hrun (idle_begin ledger)
    refine ⟨fun h => ?_, fun h => nomatch h⟩
    have hnil : s.intents = [] := by
      have hcommitted := h.committed
      rw [hidle.committed] at hcommitted
      exact List.map_eq_nil_iff.mp hcommitted.symm
    exact absurd hnil (hidle.recorded (.inr hok))

end Whole

/-! A run at 128 rows per second that is stopped behind its first chunk. -/

/-- Each plan deletes one order event. -/
def deletePlan (sequence : Nat) : TransactionPlan where
  sequence
  logicalTimeMicros := 0
  operations := [.deleteOrderEvent sequence 1 1]
  operationSha256 := "4f53cda18c2baa0c0354bb5f9a3ecbe5ed12ab4d8e11ba873c2f11161202b945"

theorem run_executes_stopped :
    letI := firstText
    Run (step 128 deletePlan) ((start {}).head true) ((start {}).head true) ∧
      (Executes {} ((start {}).head true) ↔ true = true) := by
  let _ := firstText
  have hrun : Run (step 128 deletePlan) ((start {}).head true) ((start {}).head true) :=
    GuardedRun.refl _
  exact ⟨hrun, run_executes rfl hrun rfl⟩

theorem run_play [LedgerText] {guard : WriterAct → WriterState → Prop} {a : WriterAct}
    {s s' : WriterState} (h : s.play 128 deletePlan a = some s') (hguard : guard a s) :
    GuardedRun (step 128 deletePlan) guard s s' :=
  (GuardedRun.refl s).tail (a := a) hguard h

def firstChunkActs : List WriterAct :=
  .head false :: List.replicate 64 .fill ++ [.results [], .join, .head true, .results [], .join]

/-- No statement fails, and 64 intents are recorded, but nothing is committed. -/
theorem run_drops_chunk :
    letI := firstText
    ∃ s, Run (step 128 deletePlan) (start {}) s ∧ s.result = some (.ok ()) ∧
      s.intents.length = 64 ∧ ¬Executes {} s := by
  let _ := firstText
  have hplay : ∀ (s : WriterState) a s', s.play 128 deletePlan a = some s' →
      Run (step 128 deletePlan) s s' := fun _ _ _ h => run_play h trivial
  have hend : (firstChunkActs.foldlM (fun (s : WriterState) a => s.play 128 deletePlan a)
      (start {})).map (fun s => (s.result, s.intents.length, s.committed)) =
        some (some (.ok ()), 64, []) := by
    decide +kernel
  obtain ⟨s, hs, hview⟩ := Option.map_eq_some_iff.mp hend
  obtain ⟨hresult, hrest⟩ := Prod.mk.inj hview
  obtain ⟨hlength, hcommitted⟩ := Prod.mk.inj hrest
  refine ⟨s, GuardedRun.of_foldlM hplay hs, hresult, hlength, fun h => ?_⟩
  have heq := congrArg List.length h.committed
  rw [List.length_map, List.length_map, hcommitted, hlength] at heq
  exact nomatch heq

/-! ## One iteration -/

/-- The mapping that was received and is not in the ledger. -/
def inHand (map : MapPhase) : Option LedgerCommit :=
  match map.waiting with
  | .head => map.carried
  | .recv => none
  | .query mapped => mapped

/-- The new entries, the new commits, the plans still before the map part and the mapping in
hand, in an iteration over `plans` whose first sequence is `first`. -/
structure Tracks (first : Nat) (plans : List TransactionPlan) (es : List LedgerEntry)
    (cs : List LedgerCommit) (rest : List TransactionPlan) (hand : Option LedgerCommit) : Prop where
  sequences : es.map LedgerEntry.sequence = List.range' first es.length
  planned : ∀ e ∈ es, ∃ plan ∈ plans,
    e.sequence = plan.sequence ∧ e.operationSha256 = plan.operationSha256
  suffix : rest <:+ plans
  received : es.map LedgerEntry.commit ++ hand.toList <+: cs
  once : (cs.map LedgerCommit.sequence).Nodup
  /-- What is committed is in the ledger, or its plan has not been given up. -/
  ahead : ∀ c ∈ cs, c.sequence ∈ es.map LedgerEntry.sequence ∨
    c.sequence ∈ rest.map TransactionPlan.sequence

section Tracks

variable {first : Nat} {plans rest : List TransactionPlan} {es : List LedgerEntry}
  {cs : List LedgerCommit} {hand : Option LedgerCommit}

theorem map_commit_sequence (es : List LedgerEntry) :
    (es.map LedgerEntry.commit).map LedgerCommit.sequence = es.map LedgerEntry.sequence := by
  rw [List.map_map]
  rfl

/-- A commit whose plan is still ahead. -/
theorem Tracks.commit (h : Tracks first plans es cs rest hand) {c : LedgerCommit}
    (hnew : c.sequence ∉ cs.map LedgerCommit.sequence)
    (hahead : c.sequence ∈ rest.map TransactionPlan.sequence) :
    Tracks first plans es (cs ++ [c]) rest hand where
  sequences := h.sequences
  planned := h.planned
  suffix := h.suffix
  received := h.received.trans (List.prefix_append _ _)
  once := by
    rw [List.map_append, List.map_singleton, List.nodup_append]
    refine ⟨h.once, by simp, fun a ha b hb hab => hnew ?_⟩
    rwa [← List.mem_singleton.mp hb, ← hab]
  ahead := fun c' hc' => by
    cases List.mem_append.mp hc' with
    | inl hold => exact h.ahead c' hold
    | inr heq => exact .inr (List.mem_singleton.mp heq ▸ hahead)

/-- The next mapping is received. -/
theorem Tracks.deliver (h : Tracks first plans es cs rest none) {c : LedgerCommit}
    (hc : cs[es.length]? = some c) : Tracks first plans es cs rest (some c) where
  sequences := h.sequences
  planned := h.planned
  suffix := h.suffix
  received := by
    have hpre := h.received
    rw [Option.toList_none, List.append_nil] at hpre
    obtain ⟨tail, htail⟩ := hpre
    rw [← htail, List.getElem?_append_right (by simp), List.length_map, Nat.sub_self] at hc
    obtain ⟨tail', rfl⟩ : ∃ tail', tail = c :: tail' := by
      cases tail with
      | nil => exact nomatch hc
      | cons c' tail' => exact ⟨tail', by rw [Option.some.inj hc]⟩
    exact ⟨tail', by rw [← htail, List.append_assoc]; rfl⟩
  once := h.once
  ahead := h.ahead

/-- The mapping in hand is appended for the plan. -/
theorem Tracks.append {plan : TransactionPlan} {m : LedgerCommit} {e : LedgerEntry}
    (h : Tracks first plans es cs (plan :: rest) (some m)) (he : e.commit = m)
    (hsequence : m.sequence = plan.sequence) (hhash : m.operationSha256 = plan.operationSha256)
    (hfirst : m.sequence = first + es.length) : Tracks first plans (es ++ [e]) cs rest none where
  sequences := by
    have hes : e.sequence = first + es.length := by rw [← hfirst, ← he]; rfl
    rw [List.map_append, h.sequences, List.map_singleton, hes, List.length_append,
      List.length_singleton, ← List.range'_append_1]
    rfl
  planned := fun e' he' => by
    cases List.mem_append.mp he' with
    | inl hold => exact h.planned e' hold
    | inr hnew =>
      rw [List.mem_singleton.mp hnew]
      exact ⟨plan, h.suffix.subset List.mem_cons_self,
        (congrArg LedgerCommit.sequence he).trans hsequence,
        (congrArg LedgerCommit.operationSha256 he).trans hhash⟩
  suffix := (List.suffix_cons plan rest).trans h.suffix
  received := by
    have hpre := h.received
    rw [List.map_append, List.map_singleton, he, Option.toList_none, List.append_nil]
    exact hpre
  once := h.once
  ahead := fun c hc => by
    rw [List.map_append, List.map_singleton, List.mem_append, List.mem_singleton]
    rcases h.ahead c hc with hold | hrest
    · exact .inl (.inl hold)
    · rw [List.map_cons, List.mem_cons] at hrest
      rcases hrest with heq | hrest
      · exact .inl (.inr (heq.trans ((congrArg LedgerCommit.sequence he).trans hsequence).symm))
      · exact .inr hrest

/-- A plan is given up whose marker is not there. -/
theorem Tracks.giveUp {plan : TransactionPlan} (h : Tracks first plans es cs (plan :: rest) hand)
    (hnone : ∀ c ∈ cs, c.sequence ≠ plan.sequence) : Tracks first plans es cs rest hand where
  sequences := h.sequences
  planned := h.planned
  suffix := (List.suffix_cons plan rest).trans h.suffix
  received := h.received
  once := h.once
  ahead := fun c hc => (h.ahead c hc).imp_right fun hmem =>
    (List.mem_cons.mp hmem).resolve_left (hnone c hc)

/-- When no plan is left, everything that is committed is in the ledger. -/
theorem Tracks.all (h : Tracks first plans es cs [] hand) :
    hand = none ∧ cs = es.map LedgerEntry.commit := by
  obtain ⟨tail, htail⟩ := h.received
  have hnil : hand.toList ++ tail = [] := by
    apply List.eq_nil_iff_forall_not_mem.mpr
    intro c hc
    have honce := h.once
    rw [← htail, List.append_assoc, List.map_append, map_commit_sequence,
      List.nodup_append] at honce
    have hmem : c ∈ cs := by
      rw [← htail, List.append_assoc]
      exact List.mem_append_right _ hc
    have hin := (h.ahead c hmem).resolve_right List.not_mem_nil
    exact honce.2.2 _ hin _ (List.mem_map_of_mem hc) rfl
  obtain ⟨hhand, htail'⟩ := List.append_eq_nil_iff.mp hnil
  refine ⟨Option.toList_eq_nil_iff.mp hhand, ?_⟩
  rw [← htail, hhand, htail', List.append_nil, List.append_nil]

end Tracks

/-- The ledger has gained exactly what the source has committed since `s₀`, in sequence, and
every mapping was received and is in the ledger. -/
def Exact (s₀ : WriterState) (plans : List TransactionPlan) (s : WriterState) : Prop :=
  ∃ es, s.ledger.entries = s₀.ledger.entries ++ es ∧
    s.committed = s₀.committed ++ es.map LedgerEntry.commit ∧
    s.delivered = s.committed.length ∧
    es.map LedgerEntry.sequence
      = List.range' (GrayDB.R1.nextSequence s₀.ledger.entries) es.length ∧
    ∀ e ∈ es, ∃ plan ∈ plans,
      e.sequence = plan.sequence ∧ e.operationSha256 = plan.operationSha256

def isHead : WriterAct → Bool
  | .head _ => true
  | _ => false

/-- Not the next iteration. -/
def InIteration (a : WriterAct) : Prop := isHead a = false

/-- A transaction commits only while its plan is still before the map part: it was not given
up. -/
def InTime (a : WriterAct) (s : WriterState) : Prop :=
  InIteration a ∧ ∀ c, a = .commit c → ∃ it, s.iteration = some it ∧
    c.sequence ∈ it.map.plans.map TransactionPlan.sequence

/-- In the iteration over `plans` that began in `s₀`. -/
def Midway (s₀ : WriterState) (plans rest : List TransactionPlan) (hand : Option LedgerCommit)
    (s : WriterState) : Prop :=
  ∃ es cs, s.ledger.entries = s₀.ledger.entries ++ es ∧ s.committed = s₀.committed ++ cs ∧
    s.delivered = s₀.committed.length + (es.length + hand.toList.length) ∧
    Tracks (GrayDB.R1.nextSequence s₀.ledger.entries) plans es cs rest hand

/-- In the iteration, or behind it.  The map part waits only with a plan at hand. -/
def Within (s₀ : WriterState) (plans : List TransactionPlan) (s : WriterState) : Prop :=
  match s.iteration with
  | some it => Midway s₀ plans it.map.plans (inHand it.map) s ∧
    (it.map.waiting ≠ .head → it.map.plans ≠ [])
  | none => (∃ e, s.result = some (.error e)) ∨ Exact s₀ plans s

section Iteration

variable {s₀ s s' : WriterState} {plans : List TransactionPlan} {it : Iteration}

theorem Within.fail (e : WriterError) : Within s₀ plans (s.fail e) := .inl ⟨e, rfl⟩

theorem Within.midway (h : Within s₀ plans s) (hit : s.iteration = some it) :
    Midway s₀ plans it.map.plans (inHand it.map) s ∧
      (it.map.waiting ≠ .head → it.map.plans ≠ []) := by
  unfold Within at h
  rwa [hit] at h

theorem Within.commit {c : LedgerCommit} (h : Within s₀ plans s) (hit : s.iteration = some it)
    (hstep : s.commit c = some s')
    (hahead : c.sequence ∈ it.map.plans.map TransactionPlan.sequence) : Within s₀ plans s' := by
  obtain ⟨⟨es, cs, hentries, hcommitted, hdelivered, htracks⟩, hne⟩ := h.midway hit
  unfold WriterState.commit at hstep
  split at hstep
  · rename_i hsent
    obtain rfl := Option.some.inj hstep
    have hnew : c.sequence ∉ cs.map LedgerCommit.sequence := by
      intro hmem
      apply hsent.2
      rw [hcommitted, List.map_append]
      exact List.mem_append_right _ hmem
    have hafter : Midway s₀ plans it.map.plans (inHand it.map)
        { s with committed := s.committed ++ [c] } := by
      refine ⟨es, cs ++ [c], hentries, ?_, hdelivered, htracks.commit hnew hahead⟩
      show s.committed ++ [c] = _
      rw [hcommitted, List.append_assoc]
    have hit' : ({ s with committed := s.committed ++ [c] } : WriterState).iteration = some it := hit
    unfold Within
    rw [hit']
    exact ⟨hafter, hne⟩
  · exact nomatch hstep

/-- The marker of the plan at hand is not there. -/
theorem Midway.giveUp {plan : TransactionPlan} {rest : List TransactionPlan}
    {hand : Option LedgerCommit} (h : Midway s₀ plans (plan :: rest) hand s)
    (hnone : s.committed.find? (fun c => c.sequence = plan.sequence) = none) :
    Midway s₀ plans rest hand s := by
  obtain ⟨es, cs, hentries, hcommitted, hdelivered, htracks⟩ := h
  refine ⟨es, cs, hentries, hcommitted, hdelivered, htracks.giveUp fun c hc => ?_⟩
  have hmem : c ∈ s.committed := by
    rw [hcommitted]
    exact List.mem_append_right _ hc
  simpa using List.find?_eq_none.mp hnone c hmem

/-- The sequence of the entry behind consecutive ones. -/
theorem nextSequence_append (old es : List LedgerEntry)
    (h : es.map LedgerEntry.sequence
      = List.range' (GrayDB.R1.nextSequence old) es.length) :
    GrayDB.R1.nextSequence (old ++ es) = GrayDB.R1.nextSequence old + es.length := by
  by_cases hes : es = []
  · rw [hes, List.append_nil]
    rfl
  · obtain ⟨init, e, rfl⟩ := (List.eq_nil_or_concat es).resolve_left hes
    rw [List.concat_eq_append] at h ⊢
    have hlast : e.sequence = GrayDB.R1.nextSequence old + init.length := by
      have hget := congrArg (fun l => l[init.length]?) h
      simpa using hget
    show ((old ++ (init ++ [e])).getLast?.map fun e => e.sequence + 1).getD 1 = _
    rw [← List.append_assoc, List.getLast?_concat, Option.map_some, Option.getD_some, hlast,
      List.length_append, List.length_singleton]
    omega

theorem Midway.deliver {rest : List TransactionPlan} {c : LedgerCommit}
    (h : Midway s₀ plans rest none s) (hc : s.committed[s.delivered]? = some c) :
    Midway s₀ plans rest (some c) { s with delivered := s.delivered + 1 } := by
  obtain ⟨es, cs, hentries, hcommitted, hdelivered, htracks⟩ := h
  refine ⟨es, cs, hentries, hcommitted, ?_, htracks.deliver ?_⟩
  · show s.delivered + 1 = _
    rw [hdelivered]
    rfl
  · rw [hdelivered, hcommitted, List.getElem?_append_right (by omega)] at hc
    simpa using hc

/-- The iteration is through. -/
theorem Midway.exact {hand : Option LedgerCommit} (h : Midway s₀ plans [] hand s) :
    Exact s₀ plans s := by
  obtain ⟨es, cs, hentries, hcommitted, hdelivered, htracks⟩ := h
  obtain ⟨rfl, rfl⟩ := htracks.all
  refine ⟨es, hentries, hcommitted, ?_, htracks.sequences, htracks.planned⟩
  rw [hdelivered, hcommitted, List.length_append, List.length_map]
  rfl

/-- The parts besides the map part. -/
theorem Within.results (h : Within s₀ plans s) (hit : s.iteration = some it)
    {rs : List StatementResult} (hstep : s.results rs it = some s') : Within s₀ plans s' := by
  have hmidway := h.midway hit
  unfold WriterState.results at hstep
  split at hstep
  · obtain rfl := Option.some.inj hstep
    exact hmidway
  · exact nomatch hstep

theorem Within.fill (h : Within s₀ plans s) (hit : s.iteration = some it) {targetRate : Nat}
    {planner : Nat → TransactionPlan} (hstep : s.fill targetRate planner it = some s') :
    Within s₀ plans s' := by
  have hmidway := h.midway hit
  unfold WriterState.fill at hstep
  split at hstep
  · simp only [] at hstep
    split at hstep
    · obtain rfl := Option.some.inj hstep
      exact Within.fail _
    · obtain rfl := Option.some.inj hstep
      exact hmidway
  · exact nomatch hstep

theorem Within.join (h : Within s₀ plans s) (hit : s.iteration = some it) {targetRate : Nat}
    (hstep : s.join targetRate it = some s') : Within s₀ plans s' := by
  obtain ⟨hmidway, -⟩ := h.midway hit
  unfold WriterState.join at hstep
  split at hstep
  · exact nomatch hstep
  · split at hstep
    · rename_i hall
      rw [hall.2.1] at hmidway
      split at hstep
      · obtain rfl := Option.some.inj hstep
        exact Within.fail _
      · split at hstep
        · obtain rfl := Option.some.inj hstep
          exact .inr hmidway.exact
        · obtain rfl := Option.some.inj hstep
          exact .inr hmidway.exact
    · exact nomatch hstep

theorem Within.timeout (h : Within s₀ plans s) (hit : s.iteration = some it)
    (hstep : s.timeout it = some s') : Within s₀ plans s' := by
  obtain ⟨hmidway, hne⟩ := h.midway hit
  unfold WriterState.timeout at hstep
  split at hstep
  · rename_i hrecv
    obtain rfl := Option.some.inj hstep
    have hnone : inHand it.map = none := by rw [inHand, hrecv]
    rw [hnone] at hmidway
    exact ⟨hmidway, fun _ => hne (by rw [hrecv]; exact nofun)⟩
  · exact nomatch hstep

theorem Within.query (h : Within s₀ plans s) (hit : s.iteration = some it)
    (hstep : s.query it = some s') : Within s₀ plans s' := by
  obtain ⟨hmidway, -⟩ := h.midway hit
  unfold WriterState.query at hstep
  split at hstep
  · rename_i carried plan rest hwaiting hplans
    have hhand : inHand it.map = carried := by rw [inHand, hwaiting]
    rw [hhand, hplans] at hmidway
    split at hstep
    · split at hstep
      · obtain rfl := Option.some.inj hstep
        exact Within.fail _
      · obtain rfl := Option.some.inj hstep
        exact Within.fail _
    · rename_i hnone
      obtain rfl := Option.some.inj hstep
      exact ⟨hmidway.giveUp hnone, fun hno => absurd rfl hno⟩
  · exact nomatch hstep

variable [LedgerText]

/-- A mapping is there for the plan at hand: it is appended, it is carried, or the run fails. -/
theorem Midway.mapped {m : LedgerCommit} (h : Midway s₀ plans it.map.plans (some m) s)
    (hne : it.map.plans ≠ []) (now : Nat) : Within s₀ plans (s.mapped m now it) := by
  unfold WriterState.mapped
  split
  · rename_i hnil
    exact absurd hnil hne
  · rename_i plan rest hplans
    rw [hplans] at h
    split
    · refine ⟨?_, fun _ => hne⟩
      show Midway s₀ plans it.map.plans (some m) s
      rwa [hplans]
    · rename_i hsequence
      split
      · exact Within.fail _
      · rename_i hhash
        split
        · exact Within.fail _
        · rename_i ledger bytes happend
          obtain ⟨es, cs, hentries, hcommitted, hdelivered, htracks⟩ := h
          obtain ⟨hcontinues, hledger, -⟩ := append_eq_ok happend
          obtain ⟨e, hentry, he⟩ : ∃ e : LedgerEntry,
              ledger.entries = s.ledger.entries ++ [e] ∧ e.commit = m :=
            ⟨_, congrArg CommittedLedger.entries hledger, rfl⟩
          have hfirst : m.sequence = GrayDB.R1.nextSequence s₀.ledger.entries + es.length := by
            rw [← nextSequence_append _ _ htracks.sequences, ← hentries]
            exact hcontinues.sequence
          refine ⟨⟨es ++ [e], cs, ?_, hcommitted, ?_,
            htracks.append he (not_not.mp hsequence) (not_not.mp hhash) hfirst⟩,
            fun hno => absurd rfl hno⟩
          · show ledger.entries = _
            rw [hentry, hentries, List.append_assoc]
          · show s.delivered = _
            rw [hdelivered, List.length_append]
            rfl

theorem Within.next (h : Within s₀ plans s) (hit : s.iteration = some it) {now : Nat}
    (hstep : s.next now it = some s') : Within s₀ plans s' := by
  obtain ⟨hmidway, -⟩ := h.midway hit
  unfold WriterState.next at hstep
  split at hstep
  · rename_i hhead
    have hhand : inHand it.map = it.map.carried := by rw [inHand, hhead.1]
    rw [hhand] at hmidway
    split at hstep
    · rename_i m hcarried
      obtain rfl := Option.some.inj hstep
      rw [hcarried] at hmidway
      exact hmidway.mapped hhead.2 now
    · rename_i hcarried
      obtain rfl := Option.some.inj hstep
      rw [hcarried] at hmidway
      exact ⟨hmidway, fun _ => hhead.2⟩
  · exact nomatch hstep

theorem Within.deliver (h : Within s₀ plans s) (hit : s.iteration = some it) {now : Nat}
    (hstep : s.deliver now it = some s') : Within s₀ plans s' := by
  obtain ⟨hmidway, hne⟩ := h.midway hit
  unfold WriterState.deliver at hstep
  split at hstep
  · rename_i hrecv
    have hnone : inHand it.map = none := by rw [inHand, hrecv]
    rw [hnone] at hmidway
    obtain ⟨m, hm, rfl⟩ := Option.map_eq_some_iff.mp hstep
    exact (hmidway.deliver hm).mapped (hne (by rw [hrecv]; exact nofun)) now
  · exact nomatch hstep

theorem Within.step {targetRate : Nat} {planner : Nat → TransactionPlan} (a : WriterAct)
    (hin : InTime a s) (hstep : step targetRate planner a s s') (h : Within s₀ plans s) :
    Within s₀ plans s' := by
  unfold WriterState.step WriterState.play at hstep
  cases hit : s.iteration with
  | none =>
    rw [hit] at hstep
    cases a with
    | commit c =>
      obtain ⟨it, hsome, -⟩ := hin.2 c rfl
      exact nomatch hit.symm.trans hsome
    | head stop => exact nomatch hin.1
    | _ => exact nomatch hstep
  | some it =>
    rw [hit] at hstep
    cases a with
    | commit c =>
      obtain ⟨it', hsome, hahead⟩ := hin.2 c rfl
      obtain rfl := Option.some.inj (hit.symm.trans hsome)
      exact h.commit hit hstep hahead
    | head stop => exact nomatch hstep
    | results rs => exact h.results hit hstep
    | fill => exact h.fill hit hstep
    | join => exact h.join hit hstep
    | next now => exact h.next hit hstep
    | deliver now => exact h.deliver hit hstep
    | timeout => exact h.timeout hit hstep
    | query => exact h.query hit hstep
    | closed =>
      unfold WriterState.closed at hstep
      simp only [] at hstep
      split at hstep
      · obtain rfl := Option.some.inj hstep
        exact Within.fail _
      · exact nomatch hstep
    | queryFails =>
      unfold WriterState.queryFails at hstep
      simp only [] at hstep
      split at hstep
      · obtain rfl := Option.some.inj hstep
        exact Within.fail _
      · exact nomatch hstep

omit [LedgerText] in
theorem within_head (hreceived : s.delivered = s.committed.length) (hnone : s.iteration = none)
    (stop : Bool) : Within s ((s.pending.getD []).map Prod.fst) (s.head stop) := by
  unfold WriterState.head
  split
  · refine ⟨⟨[], [], (List.append_nil _).symm, (List.append_nil _).symm, hreceived, ?_⟩,
      fun hno => absurd rfl hno⟩
    exact ⟨rfl, nofun, List.suffix_refl _, List.nil_prefix, List.nodup_nil, nofun⟩
  · unfold Within
    rw [show ({ s with result := some (.ok ()) } : WriterState).iteration = none from hnone]
    exact .inr ⟨[], (List.append_nil _).symm, (List.append_nil _).symm, hreceived, rfl, nofun⟩

/-- An iteration that succeeds leaves an exact ledger, if no transaction commits after its plan
was given up. -/
theorem iteration_exact {targetRate : Nat} {planner : Nat → TransactionPlan} {stop : Bool}
    {s₁ : WriterState} (hreceived : s₀.delivered = s₀.committed.length)
    (hhead : WriterState.step targetRate planner (.head stop) s₀ s₁)
    (hrun : GuardedRun (WriterState.step targetRate planner) InTime s₁ s)
    (hdone : s.iteration = none) (hok : ∀ e, s.result ≠ some (.error e)) :
    Exact s₀ ((s₀.pending.getD []).map Prod.fst) s := by
  have hbegin : Within s₀ ((s₀.pending.getD []).map Prod.fst) s₁ := by
    unfold WriterState.step WriterState.play at hhead
    cases hit : s₀.iteration with
    | none =>
      rw [hit] at hhead
      simp only [] at hhead
      split at hhead
      · obtain rfl := Option.some.inj hhead
        exact within_head hreceived hit stop
      · exact nomatch hhead
    | some it =>
      rw [hit] at hhead
      exact nomatch hhead
  have hend : Within s₀ ((s₀.pending.getD []).map Prod.fst) s :=
    GuardedRun.invariant (fun a _ _ hin hstep h => h.step a hin hstep) hrun hbegin
  unfold Within at hend
  rw [hdone] at hend
  exact hend.resolve_left fun ⟨e, he⟩ => hok e he

end Iteration

/-- Two plans are pending, and the ledger is empty. -/
def twoPending : WriterState where
  ledger := {}
  nextSequence := 3
  pending := some [(deletePlan 1, .ok 0), (deletePlan 2, .ok 0)]
  intents := [deletePlan 1, deletePlan 2]

/-- The marker of a plan of `twoPending`. -/
def deleteCommit (sequence : Nat) : LedgerCommit where
  sequence
  xid := 700 + sequence
  sourceLsn := 100 * sequence
  operationSha256 := (deletePlan sequence).operationSha256

/-- The first transaction commits, and the connection is lost with the second. -/
def inTimeActs : List WriterAct :=
  [.commit (deleteCommit 1), .next 0, .deliver 0, .next 0, .timeout, .query,
    .results [.ok .unit, .ok .unit, .ok (.xid 701), .ok .unit,
      .error "closed", .error "closed", .error "closed", .error "closed"], .join]

/-- The connection is lost at the first COMMIT, which goes through when its marker was looked
up already. -/
def lateActs : List WriterAct :=
  [.results [.ok .unit, .ok .unit, .ok (.xid 701), .error "closed",
      .error "closed", .error "closed", .error "closed", .error "closed"],
    .next 0, .timeout, .query, .commit (deleteCommit 1), .next 0, .deliver 0, .query, .join]

/-- An act of the iteration, if it is in time. -/
def playInTime [LedgerText] (s : WriterState) (a : WriterAct) : Option WriterState :=
  match a with
  | .head _ => none
  | .commit c =>
    if c.sequence ∈ ((s.iteration.map fun it => it.map.plans).getD []).map TransactionPlan.sequence
    then s.play 128 deletePlan (.commit c)
    else none
  | a => s.play 128 deletePlan a

theorem playInTime_run [LedgerText] (s : WriterState) (a : WriterAct) (s' : WriterState)
    (h : playInTime s a = some s') : GuardedRun (step 128 deletePlan) InTime s s' := by
  unfold playInTime at h
  cases a with
  | head stop => exact nomatch h
  | commit c =>
    simp only [] at h
    split at h
    · rename_i hahead
      refine run_play h ⟨rfl, fun c' hc' => ?_⟩
      obtain rfl := WriterAct.commit.inj hc'
      cases hit : s.iteration with
      | none =>
        rw [hit] at hahead
        exact nomatch hahead
      | some it =>
        rw [hit] at hahead
        exact ⟨it, rfl, hahead⟩
    · exact nomatch h
  | _ => exact run_play h ⟨rfl, fun _ hc => nomatch hc⟩

theorem iteration_exact_first :
    letI := firstText
    ∃ s, GuardedRun (step 128 deletePlan) InTime (twoPending.head true) s ∧
      s.committed = [deleteCommit 1] ∧ Exact twoPending [deletePlan 1, deletePlan 2] s := by
  let _ := firstText
  have hend : (inTimeActs.foldlM playInTime (twoPending.head true)).map
      (fun s => (s.iteration, s.result, s.committed)) =
        some (none, some (.ok ()), [deleteCommit 1]) := by
    decide +kernel
  obtain ⟨s, hs, hview⟩ := Option.map_eq_some_iff.mp hend
  obtain ⟨hdone, hrest⟩ := Prod.mk.inj hview
  obtain ⟨hresult, hcommitted⟩ := Prod.mk.inj hrest
  have hrun := GuardedRun.of_foldlM playInTime_run hs
  refine ⟨s, hrun, hcommitted, ?_⟩
  have hhead : step 128 deletePlan (.head true) twoPending (twoPending.head true) := rfl
  exact iteration_exact rfl hhead hrun hdone fun e he => nomatch he.symm.trans hresult

/-- The iteration succeeds, the first plan is committed and its mapping was received, but the
ledger has no entry. -/
theorem iteration_not_exact :
    letI := firstText
    ∃ s, GuardedRun (step 128 deletePlan) (fun a _ => InIteration a) (twoPending.head true) s ∧
      s.result = some (.ok ()) ∧ s.committed = [deleteCommit 1] ∧ s.delivered = 1 ∧
      s.ledger.entries = [] ∧ ¬Exact twoPending [deletePlan 1, deletePlan 2] s := by
  let _ := firstText
  have hplay : ∀ (s : WriterState) a s',
      (if isHead a then none else s.play 128 deletePlan a) = some s' →
        GuardedRun (step 128 deletePlan) (fun a _ => InIteration a) s s' := by
    intro s a s' h
    by_cases hhead : isHead a = true
    · rw [if_pos hhead] at h
      exact nomatch h
    · rw [if_neg hhead] at h
      exact run_play h (eq_false_of_ne_true hhead)
  have hend : (lateActs.foldlM
      (fun (s : WriterState) a => if isHead a then none else s.play 128 deletePlan a)
      (twoPending.head true)).map
        (fun s => (s.result, s.committed, s.delivered, s.ledger.entries)) =
          some (some (.ok ()), [deleteCommit 1], 1, []) := by
    decide +kernel
  obtain ⟨s, hs, hview⟩ := Option.map_eq_some_iff.mp hend
  obtain ⟨hresult, hrest⟩ := Prod.mk.inj hview
  obtain ⟨hcommitted, hrest⟩ := Prod.mk.inj hrest
  obtain ⟨hdelivered, hentries⟩ := Prod.mk.inj hrest
  refine ⟨s, GuardedRun.of_foldlM hplay hs, hresult, hcommitted, hdelivered, hentries, ?_⟩
  intro ⟨es, hes, hall, _⟩
  have hnil : es = [] := by
    rw [hentries] at hes
    exact hes.symm
  rw [hnil, hcommitted] at hall
  exact nomatch hall

end WriterState

end GrayDB.R1
