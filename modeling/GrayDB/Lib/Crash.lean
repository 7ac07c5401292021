import Mathlib.Tactic.Common

/-!
# Programs whose I/O calls can fail and can be interrupted

`IoM ε σ α` is a program over a state `σ` that makes I/O calls one after the
other.  Each call takes its outcome from a plan: it succeeds, or it fails
after a number of bytes; a plan that has run out means success.  After each
call the program leaves its state on a list, because another process can look
at the state there, and a crash can stop the program there.

`Spec m s V Q` is the rule that the proofs use.  It says that `m`, started in
`s` with no failure planned, ends with a result and a state that satisfy `Q`,
and that every state it leaves behind on the way satisfies `V`.  It is a Hoare
triple with a crash condition, for one start state.  `Spec.bind` composes
two specs, and `Spec.call` is the rule for one I/O call.

`Ensures m s Q` says the same of the result if there is one, `Fails m s` that `m` ends with
an error, and `Ends m s Q E` what holds at either end.  `Fallible m s plan V Q E` is the
rule for any plan: `Q` is for a run that returns, `E` for one that fails.  `Keeps f m s` is
for what no run of `m` changes.
-/

namespace Lib.Crash

/-- What one I/O call is planned to do. -/
inductive Outcome where
  | done
  | failed (bytes : Nat)
  deriving DecidableEq, Repr

/-- A write of `n` bytes is complete behind the call, whether the call fails or not. -/
def Outcome.completes (n : Nat) : Outcome → Bool
  | .done => true
  | .failed k => decide (n ≤ k)

/-- A program in flight: its state, the outcomes still planned, and the states
it has left behind, newest first. -/
structure Flight (σ : Type) where
  state : σ
  plan : List Outcome
  seen : List σ

/-- A program that makes I/O calls. -/
def IoM (ε σ α : Type) : Type :=
  Flight σ → Except ε α × Flight σ

variable {ε σ α β : Type}

namespace IoM

def pure (a : α) : IoM ε σ α := fun r => (.ok a, r)

def bind (m : IoM ε σ α) (f : α → IoM ε σ β) : IoM ε σ β := fun r =>
  match m r with
  | (.ok a, r') => f a r'
  | (.error e, r') => (.error e, r')

instance : Monad (IoM ε σ) where
  pure := IoM.pure
  bind := IoM.bind

/-- The state of the program. -/
def get : IoM ε σ σ := fun r => (.ok r.state, r)

/-- A change that no one outside can see. -/
def modify (f : σ → σ) : IoM ε σ Unit := fun r =>
  (.ok (), { r with state := f r.state })

def throw (e : ε) : IoM ε σ α := fun r => (.error e, r)

/-- A change that the outside sees at once and that cannot fail. -/
def publish (f : σ → σ) : IoM ε σ Unit := fun r =>
  (.ok (), { r with state := f r.state, seen := f r.state :: r.seen })

/-- One I/O call: `done` is its effect, and `failed k` the effect of the call
when it fails after `k` bytes. -/
def call (e : ε) (done : σ → σ) (failed : Nat → σ → σ) : IoM ε σ Unit := fun r =>
  match r.plan with
  | .failed k :: plan =>
    (.error e, ⟨failed k r.state, plan, failed k r.state :: r.seen⟩)
  | .done :: plan => (.ok (), ⟨done r.state, plan, done r.state :: r.seen⟩)
  | [] => (.ok (), ⟨done r.state, [], done r.state :: r.seen⟩)

variable {τ ε' : Type}

/-- Run a program on a part of the state that no one else can see meanwhile.  The part
is put back in any case. -/
def embed (part : τ) (put : τ → σ → σ) (wrap : ε' → ε) (m : IoM ε' τ α) : IoM ε σ α := fun r =>
  match m ⟨part, r.plan, []⟩ with
  | (.ok a, r') => (.ok a, { r with state := put r'.state r.state, plan := r'.plan })
  | (.error e, r') => (.error (wrap e), { r with state := put r'.state r.state, plan := r'.plan })

/-- Run a program on a part of the state.  What it changes there the outside sees at once. -/
def zoom (part : σ → τ) (put : τ → σ → σ) (wrap : ε' → ε) (m : IoM ε' τ α) : IoM ε σ α := fun r =>
  match m ⟨part r.state, r.plan, []⟩ with
  | (.ok a, r') => (.ok a, ⟨put r'.state r.state, r'.plan, r'.seen.map (put · r.state) ++ r.seen⟩)
  | (.error e, r') =>
    (.error (wrap e), ⟨put r'.state r.state, r'.plan, r'.seen.map (put · r.state) ++ r.seen⟩)

/-- Run a program and drop its error. -/
def attempt (m : IoM ε σ Unit) : IoM ε σ Unit := fun r => (.ok (), (m r).2)

theorem bind_assoc {γ : Type} (m : IoM ε σ α) (f : α → IoM ε σ β) (g : β → IoM ε σ γ) :
    m >>= f >>= g = m >>= fun a => f a >>= g := by
  funext r
  show IoM.bind (IoM.bind m f) g r = IoM.bind m (fun a => IoM.bind (f a) g) r
  unfold IoM.bind
  rcases m r with ⟨e | a, r'⟩
  · rfl
  · rfl

theorem bind_ok_iff {m : IoM ε σ α} {f : α → IoM ε σ β} {r r' : Flight σ} {b : β} :
    (m >>= f) r = (.ok b, r') ↔ ∃ a r₁, m r = (.ok a, r₁) ∧ f a r₁ = (.ok b, r') := by
  show IoM.bind m f r = _ ↔ _
  unfold IoM.bind
  rcases m r with ⟨e | a, r₁⟩ <;> simp

/-- The error of a program comes from its first part or from the rest. -/
theorem bind_error_iff {m : IoM ε σ α} {f : α → IoM ε σ β} {r r' : Flight σ} {e : ε} :
    (m >>= f) r = (.error e, r') ↔
      m r = (.error e, r') ∨ ∃ a r₁, m r = (.ok a, r₁) ∧ f a r₁ = (.error e, r') := by
  show IoM.bind m f r = _ ↔ _
  unfold IoM.bind
  rcases m r with ⟨e | a, r₁⟩ <;> simp

/-- A call fails when that is planned for it. -/
theorem call_error_iff {e e' : ε} {done : σ → σ} {failed : Nat → σ → σ} {r r' : Flight σ} :
    IoM.call e done failed r = (.error e', r') ↔
      ∃ k plan, r.plan = .failed k :: plan ∧ e = e' ∧
        ⟨failed k r.state, plan, failed k r.state :: r.seen⟩ = r' := by
  unfold IoM.call
  rcases r.plan with _ | ⟨_ | k, plan⟩ <;> simp

theorem call_ok_iff {e : ε} {done : σ → σ} {failed : Nat → σ → σ} {r r' : Flight σ} :
    IoM.call e done failed r = (.ok (), r') ↔
      (∀ o ∈ r.plan.head?, o = .done) ∧
        ⟨done r.state, r.plan.tail, done r.state :: r.seen⟩ = r' := by
  unfold IoM.call
  rcases r.plan with _ | ⟨_ | k, plan⟩ <;> simp

/-- The run of a program from a state, with no failure planned. -/
def exec (m : IoM ε σ α) (s : σ) : Except ε α × Flight σ := m ⟨s, [], []⟩

/-- An error ends the program. -/
theorem exec_bind_error {m : IoM ε σ α} {f : α → IoM ε σ β} {s : σ} {e : ε} {r : Flight σ}
    (h : m.exec s = (.error e, r)) : (m >>= f).exec s = (.error e, r) := by
  show IoM.bind m f _ = _
  rw [exec] at h
  rw [IoM.bind, h]

/-- The states that a run without failure leaves behind on the way. -/
def passes (m : IoM ε σ α) (s : σ) : List σ := (m.exec s).2.seen

/-- The result and the last state of a run without failure, when it returns. -/
def outcome (m : IoM ε σ α) (s : σ) : Option (α × σ) :=
  match m.exec s with
  | (.ok a, r) => some (a, r.state)
  | (.error _, _) => none

end IoM

/-- Started in `s` with no failure planned, `m` returns, its result and last
state satisfy `Q`, and every state it leaves behind satisfies `V`. -/
def Spec (m : IoM ε σ α) (s : σ) (V : σ → Prop) (Q : α → σ → Prop) : Prop :=
  ∀ seen, ∃ a s' new, m ⟨s, [], seen⟩ = (.ok a, ⟨s', [], new ++ seen⟩) ∧ Q a s' ∧
    ∀ t ∈ new, V t

/-- A spec that says nothing about the states on the way. -/
abbrev Returns (m : IoM ε σ α) (s : σ) (Q : α → σ → Prop) : Prop := Spec m s (fun _ => True) Q

namespace Spec

variable {m : IoM ε σ α} {f : α → IoM ε σ β} {s : σ} {V V' : σ → Prop}
  {Q Q' : α → σ → Prop} {R : β → σ → Prop}

theorem pure {a : α} (h : Q a s) : Spec (Pure.pure a : IoM ε σ α) s V Q :=
  fun seen => ⟨a, s, [], rfl, h, by simp⟩

theorem bind (hm : Spec m s V Q) (hf : ∀ a s', Q a s' → Spec (f a) s' V R) :
    Spec (m >>= f) s V R := by
  intro seen
  obtain ⟨a, s', new, hrun, hq, hv⟩ := hm seen
  obtain ⟨b, s'', new', hrun', hr, hv'⟩ := hf a s' hq (new ++ seen)
  refine ⟨b, s'', new' ++ new, ?_, hr, ?_⟩
  · show IoM.bind m f _ = _
    rw [IoM.bind, hrun]
    simpa using hrun'
  · intro t ht
    rcases List.mem_append.mp ht with ht | ht
    · exact hv' t ht
    · exact hv t ht

theorem get {Q : σ → σ → Prop} (h : Q s s) : Spec (IoM.get : IoM ε σ σ) s V Q :=
  fun seen => ⟨s, s, [], rfl, h, by simp⟩

theorem modify {g : σ → σ} {Q : Unit → σ → Prop} (h : Q () (g s)) :
    Spec (IoM.modify g : IoM ε σ Unit) s V Q :=
  fun seen => ⟨(), g s, [], rfl, h, by simp⟩

theorem publish {g : σ → σ} {Q : Unit → σ → Prop} (hv : V (g s)) (h : Q () (g s)) :
    Spec (IoM.publish g : IoM ε σ Unit) s V Q :=
  fun seen => ⟨(), g s, [g s], rfl, h, by simpa using hv⟩

theorem call {e : ε} {done : σ → σ} {failed : Nat → σ → σ} {Q : Unit → σ → Prop}
    (hv : V (done s)) (h : Q () (done s)) :
    Spec (IoM.call e done failed) s V Q :=
  fun seen => ⟨(), done s, [done s], rfl, h, by simpa using hv⟩

/-- Reading the state hands it to the rest. -/
theorem bind_get {f : σ → IoM ε σ β} (h : Spec (f s) s V R) : Spec (IoM.get >>= f) s V R :=
  bind (Q := fun a t => a = s ∧ t = s) (get ⟨rfl, rfl⟩) (by rintro _ _ ⟨rfl, rfl⟩; exact h)

theorem bind_modify {g : σ → σ} {f : Unit → IoM ε σ β} (h : Spec (f ()) (g s) V R) :
    Spec (IoM.modify g >>= f) s V R :=
  bind (Q := fun _ t => t = g s) (modify rfl) (by rintro _ _ rfl; exact h)

theorem bind_publish {g : σ → σ} {f : Unit → IoM ε σ β} (hv : V (g s))
    (h : Spec (f ()) (g s) V R) : Spec (IoM.publish g >>= f) s V R :=
  bind (Q := fun _ t => t = g s) (publish hv rfl) (by rintro _ _ rfl; exact h)

theorem bind_call {e : ε} {done : σ → σ} {failed : Nat → σ → σ} {f : Unit → IoM ε σ β}
    (hv : V (done s)) (h : Spec (f ()) (done s) V R) :
    Spec (IoM.call e done failed >>= f) s V R :=
  bind (Q := fun _ t => t = done s) (call hv rfl) (by rintro _ _ rfl; exact h)

theorem embed {τ ε' : Type} {part : τ} {put : τ → σ → σ} {wrap : ε' → ε} {m : IoM ε' τ α}
    {P : α → τ → Prop} (hm : Returns m part P) :
    Spec (IoM.embed part put wrap m) s V fun a s' => ∃ part', P a part' ∧
      m.outcome part = some (a, part') ∧ s' = put part' s := by
  intro seen
  obtain ⟨a, part', new, hrun, hp, -⟩ := hm []
  refine ⟨a, put part' s, [], ?_, ⟨part', hp, ?_, rfl⟩, by simp⟩
  · simp only [IoM.embed, hrun, List.nil_append]
  · rw [IoM.outcome, IoM.exec, hrun]

/-- On a part of the state, a spec of the part is a spec of the whole. -/
theorem zoom {τ ε' : Type} {part : σ → τ} {put : τ → σ → σ} {wrap : ε' → ε} {m : IoM ε' τ α}
    {W : τ → Prop} {P : α → τ → Prop} (hm : Spec m (part s) W P) (hV : ∀ t, W t → V (put t s))
    (hQ : ∀ a t, P a t → Q a (put t s)) : Spec (IoM.zoom part put wrap m) s V Q := by
  intro seen
  obtain ⟨a, t, new, hrun, hp, hw⟩ := hm []
  refine ⟨a, put t s, new.map (put · s), ?_, hQ a t hp, ?_⟩
  · simp only [IoM.zoom, hrun, List.append_nil]
  · intro u hu
    obtain ⟨u', hu', rfl⟩ := List.mem_map.mp hu
    exact hV u' (hw u' hu')

theorem attempt {m : IoM ε σ Unit} {Q : Unit → σ → Prop} (hm : Spec m s V Q) :
    Spec (IoM.attempt m) s V Q := by
  intro seen
  obtain ⟨a, s', new, hrun, hq, hv⟩ := hm seen
  exact ⟨a, s', new, by rw [IoM.attempt, hrun], hq, hv⟩

theorem mono (hm : Spec m s V Q) (hV : ∀ t, V t → V' t) (hQ : ∀ a t, Q a t → Q' a t) :
    Spec m s V' Q' := by
  intro seen
  obtain ⟨a, s', new, hrun, hq, hv⟩ := hm seen
  exact ⟨a, s', new, hrun, hQ a s' hq, fun t ht => hV t (hv t ht)⟩

theorem weaken (hm : Spec m s V Q) (hQ : ∀ a t, Q a t → Q' a t) : Spec m s V Q' :=
  hm.mono (fun _ hv => hv) hQ

/-- What a spec says about the run from `s`. -/
theorem exec (hm : Spec m s V Q) :
    ∃ a s', m.outcome s = some (a, s') ∧ Q a s' ∧ ∀ t ∈ m.passes s, V t := by
  obtain ⟨a, s', new, hrun, hq, hv⟩ := hm []
  refine ⟨a, s', ?_, hq, ?_⟩
  · rw [IoM.outcome, IoM.exec, hrun]
  · rw [IoM.passes, IoM.exec, hrun]
    simpa using hv

/-- A run that returns is the run the spec speaks of. -/
theorem of_outcome (hm : Spec m s V Q) {a : α} {s' : σ} (h : m.outcome s = some (a, s')) :
    Q a s' := by
  obtain ⟨a', t, ht, hq, -⟩ := hm.exec
  rw [ht] at h
  obtain ⟨rfl, rfl⟩ := Prod.mk.inj (Option.some.inj h)
  exact hq

end Spec

/-! ## Runs that may end with an error -/

/-- Started in `s` with no failure planned: if `m` returns, its result and last state
satisfy `Q`. -/
def Ensures (m : IoM ε σ α) (s : σ) (Q : α → σ → Prop) : Prop :=
  ∀ seen a r, m ⟨s, [], seen⟩ = (.ok a, r) → Q a r.state ∧ r.plan = []

namespace Ensures

variable {m : IoM ε σ α} {f : α → IoM ε σ β} {s : σ} {Q Q' : α → σ → Prop} {R : β → σ → Prop}

theorem pure {a : α} (h : Q a s) : Ensures (Pure.pure a : IoM ε σ α) s Q := by
  intro seen b r hrun
  obtain ⟨hb, rfl⟩ := Prod.mk.inj hrun
  obtain rfl := Except.ok.inj hb
  exact ⟨h, rfl⟩

theorem throw {e : ε} : Ensures (IoM.throw e : IoM ε σ α) s Q := by
  intro seen a r hrun
  exact nomatch (Prod.mk.inj hrun).1

theorem bind (hm : Ensures m s Q) (hf : ∀ a s', Q a s' → Ensures (f a) s' R) :
    Ensures (m >>= f) s R := by
  intro seen b r hrun
  change IoM.bind m f _ = _ at hrun
  unfold IoM.bind at hrun
  cases hm' : m ⟨s, [], seen⟩ with
  | mk res r' =>
    rw [hm'] at hrun
    cases res with
    | error e => exact nomatch (Prod.mk.inj hrun).1
    | ok a =>
      obtain ⟨hq, hplan⟩ := hm seen a r' hm'
      obtain ⟨state, plan, seen'⟩ := r'
      obtain rfl : plan = [] := hplan
      exact hf a state hq seen' b r hrun

theorem bind_get {f : σ → IoM ε σ β} (h : Ensures (f s) s R) : Ensures (IoM.get >>= f) s R := h

theorem modify {g : σ → σ} {Q : Unit → σ → Prop} (h : Q () (g s)) :
    Ensures (IoM.modify g : IoM ε σ Unit) s Q := by
  intro seen a r hrun
  obtain ⟨-, rfl⟩ := Prod.mk.inj hrun
  exact ⟨h, rfl⟩

theorem bind_modify {g : σ → σ} {f : Unit → IoM ε σ β} (h : Ensures (f ()) (g s) R) :
    Ensures (IoM.modify g >>= f) s R := h

theorem call {e : ε} {done : σ → σ} {failed : Nat → σ → σ} {Q : Unit → σ → Prop}
    (h : Q () (done s)) : Ensures (IoM.call e done failed) s Q := by
  intro seen a r hrun
  obtain ⟨-, rfl⟩ := Prod.mk.inj hrun
  exact ⟨h, rfl⟩

theorem bind_call {e : ε} {done : σ → σ} {failed : Nat → σ → σ} {f : Unit → IoM ε σ β}
    (h : Ensures (f ()) (done s) R) : Ensures (IoM.call e done failed >>= f) s R :=
  bind (Q := fun _ t => t = done s) (call rfl) (by rintro _ _ rfl; exact h)

theorem weaken (hm : Ensures m s Q) (hQ : ∀ a t, Q a t → Q' a t) : Ensures m s Q' := by
  intro seen a r hrun
  obtain ⟨hq, hplan⟩ := hm seen a r hrun
  exact ⟨hQ a _ hq, hplan⟩

/-- The result is dropped. -/
theorem drop {P : σ → Prop} (hm : Ensures m s fun _ t => P t) :
    Ensures (m >>= fun _ => Pure.pure ()) s fun _ t => P t :=
  bind hm fun _ _ h => pure h

/-- What is known of the program with its result dropped. -/
theorem of_drop {P : σ → Prop} (hm : Ensures (m >>= fun _ => Pure.pure ()) s fun _ t => P t) :
    Ensures m s fun _ t => P t := by
  intro seen a r hrun
  apply hm seen () r
  show IoM.bind m _ _ = _
  rw [IoM.bind, hrun]
  rfl

/-- What holds of a run that returns. -/
theorem of_outcome (hm : Ensures m s Q) {a : α} {s' : σ} (h : m.outcome s = some (a, s')) :
    Q a s' := by
  unfold IoM.outcome IoM.exec at h
  cases hrun : m ⟨s, [], []⟩ with
  | mk res r =>
    rw [hrun] at h
    cases res with
    | error e => simp at h
    | ok b =>
      obtain ⟨rfl, rfl⟩ := Prod.mk.inj (Option.some.inj h)
      exact (hm [] b r hrun).1

end Ensures

/-- A run that returns has what is known of it. -/
theorem Spec.and_ensures {m : IoM ε σ α} {s : σ} {V : σ → Prop} {Q R : α → σ → Prop}
    (hm : Spec m s V Q) (h : Ensures m s R) : Spec m s V fun a t => Q a t ∧ R a t := by
  intro seen
  obtain ⟨a, s', new, hrun, hq, hv⟩ := hm seen
  exact ⟨a, s', new, hrun, ⟨hq, (h seen a _ hrun).1⟩, hv⟩

/-- A spec is known of the run. -/
theorem Spec.ensures {m : IoM ε σ α} {s : σ} {V : σ → Prop} {Q : α → σ → Prop}
    (hm : Spec m s V Q) : Ensures m s Q := by
  intro seen a r hrun
  obtain ⟨a', s', new, hrun', hq, -⟩ := hm seen
  obtain ⟨ha, rfl⟩ := Prod.mk.inj (hrun.symm.trans hrun')
  obtain rfl := Except.ok.inj ha
  exact ⟨hq, rfl⟩

/-! ## Runs and their errors -/

/-- Started in `s` with no failure planned, `m` returns with `Q`, or it fails with `E`. -/
def Ends (m : IoM ε σ α) (s : σ) (Q : α → σ → Prop) (E : ε → σ → Prop) : Prop :=
  ∀ seen, ∃ r, r.plan = [] ∧
    ((∃ a, m ⟨s, [], seen⟩ = (.ok a, r) ∧ Q a r.state) ∨
      ∃ e, m ⟨s, [], seen⟩ = (.error e, r) ∧ E e r.state)

namespace Ends

variable {m : IoM ε σ α} {f : α → IoM ε σ β} {s : σ} {Q Q' : α → σ → Prop} {R : β → σ → Prop}
  {E E' : ε → σ → Prop}

theorem pure {a : α} (h : Q a s) : Ends (Pure.pure a : IoM ε σ α) s Q E :=
  fun seen => ⟨⟨s, [], seen⟩, rfl, .inl ⟨a, rfl, h⟩⟩

theorem throw {e : ε} (h : E e s) : Ends (IoM.throw e : IoM ε σ α) s Q E :=
  fun seen => ⟨⟨s, [], seen⟩, rfl, .inr ⟨e, rfl, h⟩⟩

theorem of_spec {V : σ → Prop} (hm : Spec m s V Q) : Ends m s Q E := by
  intro seen
  obtain ⟨a, s', new, hrun, hq, -⟩ := hm seen
  exact ⟨_, rfl, .inl ⟨a, hrun, hq⟩⟩

theorem bind (hm : Ends m s Q E) (hf : ∀ a s', Q a s' → Ends (f a) s' R E) :
    Ends (m >>= f) s R E := by
  intro seen
  obtain ⟨⟨s', plan, seen'⟩, hplan, hend⟩ := hm seen
  obtain rfl : plan = [] := hplan
  rcases hend with ⟨a, hrun, hq⟩ | ⟨e, hrun, he⟩
  · have hbind : (m >>= f) ⟨s, [], seen⟩ = f a ⟨s', [], seen'⟩ := by
      show IoM.bind m f _ = _
      rw [IoM.bind, hrun]
    rw [hbind]
    exact hf a s' hq seen'
  · refine ⟨_, rfl, .inr ⟨e, ?_, he⟩⟩
    show IoM.bind m f _ = _
    rw [IoM.bind, hrun]

theorem bind_get {f : σ → IoM ε σ β} (h : Ends (f s) s R E) : Ends (IoM.get >>= f) s R E := h

theorem modify {g : σ → σ} {Q : Unit → σ → Prop} (h : Q () (g s)) :
    Ends (IoM.modify g : IoM ε σ Unit) s Q E :=
  fun seen => ⟨⟨g s, [], seen⟩, rfl, .inl ⟨(), rfl, h⟩⟩

theorem bind_modify {g : σ → σ} {f : Unit → IoM ε σ β} (h : Ends (f ()) (g s) R E) :
    Ends (IoM.modify g >>= f) s R E := h

theorem call {e : ε} {done : σ → σ} {failed : Nat → σ → σ} {Q : Unit → σ → Prop}
    (h : Q () (done s)) : Ends (IoM.call e done failed) s Q E :=
  fun seen => ⟨⟨done s, [], done s :: seen⟩, rfl, .inl ⟨(), rfl, h⟩⟩

theorem bind_call {e : ε} {done : σ → σ} {failed : Nat → σ → σ} {f : Unit → IoM ε σ β}
    (h : Ends (f ()) (done s) R E) : Ends (IoM.call e done failed >>= f) s R E :=
  bind (Q := fun _ t => t = done s) (call rfl) (by rintro _ _ rfl; exact h)

theorem embed {τ ε' : Type} {part : τ} {put : τ → σ → σ} {wrap : ε' → ε} {m : IoM ε' τ α}
    {P : α → τ → Prop} {F : ε' → τ → Prop} (hm : Ends m part P F)
    (hQ : ∀ a t, P a t → Q a (put t s)) (hE : ∀ e t, F e t → E (wrap e) (put t s)) :
    Ends (IoM.embed part put wrap m) s Q E := by
  intro seen
  obtain ⟨⟨t, plan, seen'⟩, hplan, hend⟩ := hm []
  obtain rfl : plan = [] := hplan
  rcases hend with ⟨a, hrun, hp⟩ | ⟨e, hrun, he⟩
  · refine ⟨⟨put t s, [], seen⟩, rfl, .inl ⟨a, ?_, hQ a t hp⟩⟩
    simp only [IoM.embed, hrun]
  · refine ⟨⟨put t s, [], seen⟩, rfl, .inr ⟨wrap e, ?_, hE e t he⟩⟩
    simp only [IoM.embed, hrun]

theorem zoom {τ ε' : Type} {part : σ → τ} {put : τ → σ → σ} {wrap : ε' → ε} {m : IoM ε' τ α}
    {P : α → τ → Prop} {F : ε' → τ → Prop} (hm : Ends m (part s) P F)
    (hQ : ∀ a t, P a t → Q a (put t s)) (hE : ∀ e t, F e t → E (wrap e) (put t s)) :
    Ends (IoM.zoom part put wrap m) s Q E := by
  intro seen
  obtain ⟨⟨t, plan, seen'⟩, hplan, hend⟩ := hm []
  obtain rfl : plan = [] := hplan
  rcases hend with ⟨a, hrun, hp⟩ | ⟨e, hrun, he⟩
  · refine ⟨⟨put t s, [], seen'.map (put · s) ++ seen⟩, rfl, .inl ⟨a, ?_, hQ a t hp⟩⟩
    simp only [IoM.zoom, hrun]
  · refine ⟨⟨put t s, [], seen'.map (put · s) ++ seen⟩, rfl, .inr ⟨wrap e, ?_, hE e t he⟩⟩
    simp only [IoM.zoom, hrun]

theorem weaken (hm : Ends m s Q E) (hQ : ∀ a t, Q a t → Q' a t) (hE : ∀ e t, E e t → E' e t) :
    Ends m s Q' E' := by
  intro seen
  obtain ⟨r, hplan, hend⟩ := hm seen
  exact ⟨r, hplan, hend.imp (fun ⟨a, hrun, hq⟩ => ⟨a, hrun, hQ a _ hq⟩)
    fun ⟨e, hrun, he⟩ => ⟨e, hrun, hE e _ he⟩⟩

/-- The two ends of the run from `s`. -/
theorem exec (hm : Ends m s Q E) : (∃ a r, m.exec s = (.ok a, r) ∧ Q a r.state) ∨
    ∃ e r, m.exec s = (.error e, r) ∧ E e r.state := by
  obtain ⟨r, -, hend⟩ := hm []
  exact hend.imp (fun ⟨a, hrun, hq⟩ => ⟨a, r, hrun, hq⟩) fun ⟨e, hrun, he⟩ => ⟨e, r, hrun, he⟩

end Ends

/-! ## Runs that end with an error -/

/-- Started in `s` with no failure planned, `m` ends with an error. -/
def Fails (m : IoM ε σ α) (s : σ) : Prop := ∀ seen, ∃ e r, m ⟨s, [], seen⟩ = (.error e, r)

namespace Fails

variable {m : IoM ε σ α} {f : α → IoM ε σ β} {s : σ} {V : σ → Prop} {Q : α → σ → Prop}

theorem throw (e : ε) : Fails (IoM.throw e : IoM ε σ α) s := fun seen => ⟨e, ⟨s, [], seen⟩, rfl⟩

theorem bind (hm : Fails m s) : Fails (m >>= f) s := by
  intro seen
  obtain ⟨e, r, hrun⟩ := hm seen
  refine ⟨e, r, ?_⟩
  show IoM.bind m f _ = _
  rw [IoM.bind, hrun]

/-- The error comes behind a part that returns. -/
theorem bind_of_spec (hm : Spec m s V Q) (hf : ∀ a s', Q a s' → Fails (f a) s') :
    Fails (m >>= f) s := by
  intro seen
  obtain ⟨a, s', new, hrun, hq, -⟩ := hm seen
  obtain ⟨e, r, hrun'⟩ := hf a s' hq (new ++ seen)
  refine ⟨e, r, ?_⟩
  show IoM.bind m f _ = _
  rw [IoM.bind, hrun]
  exact hrun'

theorem bind_get {f : σ → IoM ε σ β} (h : Fails (f s) s) : Fails (IoM.get >>= f) s := h

theorem bind_modify {g : σ → σ} {f : Unit → IoM ε σ β} (h : Fails (f ()) (g s)) :
    Fails (IoM.modify g >>= f) s := h

theorem outcome (h : Fails m s) : m.outcome s = none := by
  obtain ⟨e, r, hrun⟩ := h []
  rw [IoM.outcome, IoM.exec, hrun]

end Fails

/-! ## Runs that can fail -/

/-- Started in `s` with the outcomes `plan`, `m` leaves only states behind that satisfy `V`.
Its result, last state and what is left of the plan satisfy `Q` when it returns, and its
last state `E` when it fails. -/
def Fallible (m : IoM ε σ α) (s : σ) (plan : List Outcome) (V : σ → Prop)
    (Q : α → σ → List Outcome → Prop) (E : σ → Prop) : Prop :=
  ∀ seen, ∃ s' plan' new, (∀ t ∈ new, V t) ∧
    ((∃ a, m ⟨s, plan, seen⟩ = (.ok a, ⟨s', plan', new ++ seen⟩) ∧ Q a s' plan') ∨
      ∃ e, m ⟨s, plan, seen⟩ = (.error e, ⟨s', plan', new ++ seen⟩) ∧ E s')

namespace Fallible

variable {m : IoM ε σ α} {f : α → IoM ε σ β} {s : σ} {plan : List Outcome} {V : σ → Prop}
  {Q Q' : α → σ → List Outcome → Prop} {R : β → σ → List Outcome → Prop} {E E' : σ → Prop}

theorem pure {a : α} (h : Q a s plan) : Fallible (Pure.pure a : IoM ε σ α) s plan V Q E :=
  fun _ => ⟨s, plan, [], by simp, Or.inl ⟨a, rfl, h⟩⟩

theorem throw {e : ε} (h : E s) : Fallible (IoM.throw e : IoM ε σ α) s plan V Q E :=
  fun _ => ⟨s, plan, [], by simp, Or.inr ⟨e, rfl, h⟩⟩

theorem bind (hm : Fallible m s plan V Q E)
    (hf : ∀ a s' plan', Q a s' plan' → Fallible (f a) s' plan' V R E) :
    Fallible (m >>= f) s plan V R E := by
  intro seen
  obtain ⟨s', plan', new, hv, ⟨a, hrun, hq⟩ | ⟨e, hrun, he⟩⟩ := hm seen
  · obtain ⟨s'', plan'', new', hv', hend⟩ := hf a s' plan' hq (new ++ seen)
    have hbind : (m >>= f) ⟨s, plan, seen⟩ = f a ⟨s', plan', new ++ seen⟩ := by
      show IoM.bind m f _ = _
      rw [IoM.bind, hrun]
    refine ⟨s'', plan'', new' ++ new, ?_, ?_⟩
    · intro t ht
      rcases List.mem_append.mp ht with ht | ht
      · exact hv' t ht
      · exact hv t ht
    · rw [hbind, List.append_assoc]
      exact hend
  · refine ⟨s', plan', new, hv, Or.inr ⟨e, ?_, he⟩⟩
    show IoM.bind m f _ = _
    rw [IoM.bind, hrun]

theorem imp {V' : σ → Prop} (hm : Fallible m s plan V Q E) (hV : ∀ t, V t → V' t)
    (hQ : ∀ a t p, Q a t p → Q' a t p) (hE : ∀ t, E t → E' t) :
    Fallible m s plan V' Q' E' := by
  intro seen
  obtain ⟨s', plan', new, hv, hend⟩ := hm seen
  refine ⟨s', plan', new, fun t ht => hV t (hv t ht), hend.imp ?_ ?_⟩
  · exact fun ⟨a, hrun, hq⟩ => ⟨a, hrun, hQ _ _ _ hq⟩
  · exact fun ⟨e, hrun, he⟩ => ⟨e, hrun, hE _ he⟩

theorem mono (hm : Fallible m s plan V Q E) (hQ : ∀ a t p, Q a t p → Q' a t p)
    (hE : ∀ t, E t → E' t) : Fallible m s plan V Q' E' := by
  intro seen
  obtain ⟨s', plan', new, hv, ⟨a, hrun, hq⟩ | ⟨e, hrun, he⟩⟩ := hm seen
  · exact ⟨s', plan', new, hv, Or.inl ⟨a, hrun, hQ _ _ _ hq⟩⟩
  · exact ⟨s', plan', new, hv, Or.inr ⟨e, hrun, hE _ he⟩⟩

theorem bind_get {f : σ → IoM ε σ β} (h : Fallible (f s) s plan V R E) :
    Fallible (IoM.get >>= f) s plan V R E := h

theorem modify {g : σ → σ} {Q : Unit → σ → List Outcome → Prop} (h : Q () (g s) plan) :
    Fallible (IoM.modify g : IoM ε σ Unit) s plan V Q E :=
  fun _ => ⟨g s, plan, [], by simp, Or.inl ⟨(), rfl, h⟩⟩

theorem bind_modify {g : σ → σ} {f : Unit → IoM ε σ β}
    (h : Fallible (f ()) (g s) plan V R E) : Fallible (IoM.modify g >>= f) s plan V R E := h

theorem publish {g : σ → σ} {Q : Unit → σ → List Outcome → Prop} (hv : V (g s))
    (h : Q () (g s) plan) : Fallible (IoM.publish g : IoM ε σ Unit) s plan V Q E :=
  fun _ => ⟨g s, plan, [g s], by simpa using hv, Or.inl ⟨(), rfl, h⟩⟩

theorem bind_publish {g : σ → σ} {f : Unit → IoM ε σ β} (hv : V (g s))
    (h : Fallible (f ()) (g s) plan V R E) : Fallible (IoM.publish g >>= f) s plan V R E :=
  bind (Q := fun _ t p => t = g s ∧ p = plan) (publish hv ⟨rfl, rfl⟩)
    (by rintro _ _ _ ⟨rfl, rfl⟩; exact h)

/-- One call: it succeeds, or it fails as planned. -/
theorem call {e : ε} {done : σ → σ} {failed : Nat → σ → σ} {Q : Unit → σ → List Outcome → Prop}
    (hdone : plan = [] ∨ plan.head? = some .done → V (done s) ∧ Q () (done s) plan.tail)
    (hfailed : ∀ k, plan.head? = some (.failed k) → V (failed k s) ∧ E (failed k s)) :
    Fallible (IoM.call e done failed) s plan V Q E := by
  intro seen
  cases plan with
  | nil =>
    obtain ⟨hv, hq⟩ := hdone (Or.inl rfl)
    exact ⟨done s, [], [done s], by simpa using hv, Or.inl ⟨(), rfl, hq⟩⟩
  | cons o plan =>
    cases o with
    | done =>
      obtain ⟨hv, hq⟩ := hdone (Or.inr rfl)
      exact ⟨done s, plan, [done s], by simpa using hv, Or.inl ⟨(), rfl, hq⟩⟩
    | failed k =>
      obtain ⟨hv, he⟩ := hfailed k rfl
      exact ⟨failed k s, plan, [failed k s], by simpa using hv, Or.inr ⟨e, rfl, he⟩⟩

/-- A part of the state, which satisfies `Q'` or `E'` in the end. -/
theorem embed {τ ε' : Type} {part : τ} {put : τ → σ → σ} {wrap : ε' → ε} {m : IoM ε' τ α}
    {V' : τ → Prop} {Q' : α → τ → List Outcome → Prop} {E' : τ → Prop}
    (hm : Fallible m part plan V' Q' E') (hQ : ∀ a t p, Q' a t p → Q a (put t s) p)
    (hE : ∀ t, E' t → E (put t s)) : Fallible (IoM.embed part put wrap m) s plan V Q E := by
  intro seen
  obtain ⟨t, plan', new, -, ⟨a, hrun, hq⟩ | ⟨e, hrun, he⟩⟩ := hm []
  · refine ⟨put t s, plan', [], by simp, Or.inl ⟨a, ?_, hQ a t plan' hq⟩⟩
    simp only [IoM.embed, hrun, List.nil_append]
  · refine ⟨put t s, plan', [], by simp, Or.inr ⟨wrap e, ?_, hE t he⟩⟩
    simp only [IoM.embed, hrun, List.nil_append]

/-- On a part of the state, what is known of the part is known of the whole. -/
theorem zoom {τ ε' : Type} {part : σ → τ} {put : τ → σ → σ} {wrap : ε' → ε} {m : IoM ε' τ α}
    {W : τ → Prop} {Q' : α → τ → List Outcome → Prop} {E' : τ → Prop}
    (hm : Fallible m (part s) plan W Q' E') (hV : ∀ t, W t → V (put t s))
    (hQ : ∀ a t p, Q' a t p → Q a (put t s) p) (hE : ∀ t, E' t → E (put t s)) :
    Fallible (IoM.zoom part put wrap m) s plan V Q E := by
  intro seen
  obtain ⟨t, plan', new, hw, hend⟩ := hm []
  refine ⟨put t s, plan', new.map (put · s), ?_, ?_⟩
  · intro u hu
    obtain ⟨u', hu', rfl⟩ := List.mem_map.mp hu
    exact hV u' (hw u' hu')
  · rcases hend with ⟨a, hrun, hq⟩ | ⟨e, hrun, he⟩
    · refine Or.inl ⟨a, ?_, hQ a t plan' hq⟩
      simp only [IoM.zoom, hrun, List.append_nil]
    · refine Or.inr ⟨wrap e, ?_, hE t he⟩
      simp only [IoM.zoom, hrun, List.append_nil]

/-- An error that is dropped. -/
theorem attempt {m : IoM ε σ Unit} {Q : Unit → σ → List Outcome → Prop}
    (hm : Fallible m s plan V Q fun t => ∀ p, Q () t p) :
    Fallible (IoM.attempt m) s plan V Q E := by
  intro seen
  obtain ⟨s', plan', new, hv, hend⟩ := hm seen
  refine ⟨s', plan', new, hv, Or.inl ⟨(), ?_⟩⟩
  rcases hend with ⟨_, hrun, hq⟩ | ⟨e, hrun, he⟩
  · exact ⟨by rw [IoM.attempt, hrun], hq⟩
  · exact ⟨by rw [IoM.attempt, hrun], he plan'⟩

/-- What holds of a run that returns. -/
theorem of_ok (hm : Fallible m s plan V Q E) {seen : List σ} {a : α} {r : Flight σ}
    (h : m ⟨s, plan, seen⟩ = (.ok a, r)) : Q a r.state r.plan := by
  obtain ⟨s', plan', new, -, ⟨a', hrun, hq⟩ | ⟨e, hrun, -⟩⟩ := hm seen
  · obtain ⟨ha, rfl⟩ := Prod.mk.inj (hrun.symm.trans h)
    obtain rfl := Except.ok.inj ha
    exact hq
  · exact nomatch (Prod.mk.inj (hrun.symm.trans h)).1

/-- What holds however the run ends. -/
theorem final {P : σ → Prop} (hm : Fallible m s plan V (fun _ t _ => P t) P) :
    P (m ⟨s, plan, []⟩).2.state ∧ ∀ t ∈ (m ⟨s, plan, []⟩).2.seen, V t := by
  obtain ⟨s', plan', new, hv, ⟨a, hrun, hq⟩ | ⟨e, hrun, he⟩⟩ := hm []
  · rw [hrun]
    exact ⟨hq, by simpa using hv⟩
  · rw [hrun]
    exact ⟨he, by simpa using hv⟩

end Fallible

/-! ## What a run leaves as it is -/

/-- However a run of `m` from `s` ends, `f` of the state is what it was. -/
def Keeps {τ : Type} (f : σ → τ) (m : IoM ε σ α) (s : σ) : Prop :=
  ∀ plan, Fallible m s plan (fun _ => True) (fun _ t _ => f t = f s) fun t => f t = f s

namespace Keeps

variable {τ : Type} {f : σ → τ} {m : IoM ε σ α} {k : α → IoM ε σ β} {s : σ}

theorem pure {a : α} : Keeps f (Pure.pure a : IoM ε σ α) s := fun _ => Fallible.pure rfl

theorem throw {e : ε} : Keeps f (IoM.throw e : IoM ε σ α) s := fun _ => Fallible.throw rfl

theorem bind (hm : Keeps f m s) (hk : ∀ a s', f s' = f s → Keeps f (k a) s') :
    Keeps f (m >>= k) s := by
  intro plan
  refine Fallible.bind (hm plan) fun a s' plan' h => ?_
  rw [← h]
  exact hk a s' h plan'

theorem bind_get {k : σ → IoM ε σ β} (h : Keeps f (k s) s) : Keeps f (IoM.get >>= k) s := h

theorem modify {g : σ → σ} (h : f (g s) = f s) : Keeps f (IoM.modify g : IoM ε σ Unit) s :=
  fun _ => Fallible.modify h

theorem bind_modify {g : σ → σ} {k : Unit → IoM ε σ β} (h : f (g s) = f s)
    (hk : Keeps f (k ()) (g s)) : Keeps f (IoM.modify g >>= k) s := by
  intro plan
  have hrest := hk plan
  rw [h] at hrest
  exact Fallible.bind_modify hrest

theorem call {e : ε} {done : σ → σ} {failed : Nat → σ → σ} (hdone : f (done s) = f s)
    (hfailed : ∀ n, f (failed n s) = f s) : Keeps f (IoM.call e done failed) s :=
  fun _ => Fallible.call (fun _ => ⟨trivial, hdone⟩) fun n _ => ⟨trivial, hfailed n⟩

theorem embed {τ' ρ ε' : Type} {g : ρ → τ'} {part : ρ} {put : ρ → σ → σ} {wrap : ε' → ε}
    {m : IoM ε' ρ α} (hm : Keeps g m part) (hput : ∀ t, g t = g part → f (put t s) = f s) :
    Keeps f (IoM.embed part put wrap m) s :=
  fun plan => Fallible.embed (hm plan) (fun _ t _ h => hput t h) hput

/-- The last state of a run. -/
theorem final (hm : Keeps f m s) (plan : List Outcome) : f (m ⟨s, plan, []⟩).2.state = f s :=
  (hm plan).final.1

end Keeps

/-! ## Programs that leave a part of the state -/

/-- `f` of the state is what it was, whatever the calls of `m` do. -/
def Leaves {τ : Type} (f : σ → τ) (m : IoM ε σ α) : Prop := ∀ r, f (m r).2.state = f r.state

namespace Leaves

variable {τ : Type} {f : σ → τ} {m : IoM ε σ α} {k : α → IoM ε σ β}

theorem pure {a : α} : Leaves f (Pure.pure a : IoM ε σ α) := fun _ => rfl

theorem bind (hm : Leaves f m) (hk : ∀ a, Leaves f (k a)) : Leaves f (m >>= k) := by
  intro r
  have hfirst := hm r
  show f (IoM.bind m k r).2.state = _
  unfold IoM.bind
  generalize m r = result at hfirst
  obtain ⟨e | a, r₁⟩ := result
  · exact hfirst
  · exact (hk a r₁).trans hfirst

theorem bind_get {k : σ → IoM ε σ β} (h : ∀ s, Leaves f (k s)) : Leaves f (IoM.get >>= k) :=
  fun r => h r.state r

/-- A part of the state that `f` does not see. -/
theorem embed {ρ ε' : Type} {part : ρ} {put : ρ → σ → σ} {wrap : ε' → ε} {m : IoM ε' ρ α}
    (hput : ∀ t s, f (put t s) = f s) : Leaves f (IoM.embed part put wrap m) := by
  intro r
  unfold IoM.embed
  rcases m ⟨part, r.plan, []⟩ with ⟨e | a, r₁⟩
  · exact hput _ _
  · exact hput _ _

end Leaves

end Lib.Crash
