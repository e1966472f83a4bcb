/-!
# ConcurrencyLab.Lts

Labelled transition systems given by an *executable* step function, and the
rules every invariant argument of this development goes through.

A system steps from a state under a scheduling choice; a step that is
possible yields the next state together with the list of events an outside
observer records.  The concatenation of those lists is the *log* of a run:
properties that talk about the past (what was sent, in which order) are
properties of the log, so the state itself carries no history variables.

* `Lts.Run` — a log and the state it leads to from the initial state;
* `Lts.exec` — runs a list of choices, so concrete runs are evaluated;
* `Lts.Run.invariant` — the induction rule over runs;
* `Lts.Run.simulate`, `Lts.Run.simulate_exec` — the rules by which one system refines
  another, step by step or with steps that it does not see;
* `Lts.RunWhere` — the runs each of whose steps meets a condition;
* `Lts.exec_length_le` — a decreasing measure bounds every path;
* `Lts.exec_length_le_of_cost` — so does one that some events raise again, by
  what they raise it;
* `Lts.exists_maximal` — and it leads to a state where nothing is left to do.
-/

namespace ConcurrencyLab

universe u v w

/-- A labelled transition system over states `σ`, scheduling choices `α` and
observable events `ε`. -/
structure Lts (σ : Type u) (α : Type v) (ε : Type w) where
  init : σ
  step : σ → α → Option (List ε × σ)

namespace Lts

variable {σ : Type u} {α : Type v} {ε : Type w} (L : Lts σ α ε)

/-- Execute a list of choices from a state, collecting the events. -/
def exec : σ → List α → Option (List ε × σ)
  | s, [] => some ([], s)
  | s, a :: as =>
      (L.step s a).bind fun p => (exec p.2 as).map fun q => (p.1 ++ q.1, q.2)

/-- Execute a list of choices as long as each step meets a condition on the log
before it, the state it leaves and the events it reports. -/
def execWhere (ok : List ε → σ → List ε → Prop) [∀ log s es, Decidable (ok log s es)] :
    List ε → σ → List α → Option (List ε × σ)
  | log, s, [] => some (log, s)
  | log, s, a :: as =>
      (L.step s a).bind fun p =>
        if ok log s p.1 then execWhere ok (log ++ p.1) p.2 as else none

/-- `Run log s`: some sequence of steps leads from the initial state to `s`,
and `log` lists the events of all its steps in order. -/
inductive Run : List ε → σ → Prop
  | init : Run [] L.init
  | step {log : List ε} {s : σ} {a : α} {es : List ε} {s' : σ} :
      Run log s → L.step s a = some (es, s') → Run (log ++ es) s'

/-- The runs whose every step meets a condition on the log before it, the state
it leaves and the events it reports. -/
inductive RunWhere (ok : List ε → σ → List ε → Prop) : List ε → σ → Prop
  | init : RunWhere ok [] L.init
  | step {log : List ε} {s : σ} {a : α} {es : List ε} {s' : σ} :
      RunWhere ok log s → L.step s a = some (es, s') → ok log s es → RunWhere ok (log ++ es) s'

/-- Some step is possible in `s`. -/
def Enabled (s : σ) : Prop := ∃ a, (L.step s a).isSome

/-! ## executing choices -/

@[simp] theorem exec_nil (s : σ) : L.exec s [] = some ([], s) := rfl

theorem exec_cons_eq_some {s s' : σ} {a : α} {as : List α} {es : List ε} :
    L.exec s (a :: as) = some (es, s') ↔
      ∃ es₁ s₁ es₂, L.step s a = some (es₁, s₁) ∧ L.exec s₁ as = some (es₂, s') ∧
        es = es₁ ++ es₂ := by
  simp only [exec, Option.bind_eq_some_iff, Option.map_eq_some_iff, Prod.exists, Prod.mk.injEq]
  constructor
  · rintro ⟨es₁, s₁, h₁, es₂, s₂, h₂, rfl, rfl⟩
    exact ⟨es₁, s₁, es₂, h₁, h₂, rfl⟩
  · rintro ⟨es₁, s₁, es₂, h₁, h₂, rfl⟩
    exact ⟨es₁, s₁, h₁, es₂, s', h₂, rfl, rfl⟩

/-- One execution after another. -/
theorem exec_append {s s₁ s₂ : σ} {as bs : List α} {es es' : List ε}
    (h : L.exec s as = some (es, s₁)) (h' : L.exec s₁ bs = some (es', s₂)) :
    L.exec s (as ++ bs) = some (es ++ es', s₂) := by
  induction as generalizing s es with
  | nil =>
      simp only [exec_nil, Option.some.injEq, Prod.mk.injEq] at h
      obtain ⟨rfl, rfl⟩ := h
      simpa using h'
  | cons a as ih =>
      obtain ⟨es₁, s₀, es₂, hstep, hexec, rfl⟩ := L.exec_cons_eq_some.mp h
      exact L.exec_cons_eq_some.mpr ⟨es₁, s₀, _, hstep, ih hexec, List.append_assoc _ _ _⟩

namespace Run

variable {L}

/-- An execution continues a run. -/
theorem exec {log es : List ε} {s s' : σ} {as : List α} (h : L.Run log s)
    (he : L.exec s as = some (es, s')) : L.Run (log ++ es) s' := by
  induction as generalizing log s es with
  | nil =>
      simp only [exec_nil, Option.some.injEq, Prod.mk.injEq] at he
      obtain ⟨rfl, rfl⟩ := he
      simpa using h
  | cons a as ih =>
      obtain ⟨es₁, s₁, es₂, hstep, hexec, rfl⟩ := L.exec_cons_eq_some.mp he
      rw [← List.append_assoc]
      exact ih (h.step hstep) hexec

/-- Executing choices from the initial state is a run. -/
theorem of_exec {log : List ε} {s : σ} {as : List α} (h : L.exec L.init as = some (log, s)) :
    L.Run log s := by
  simpa using (Run.init (L := L)).exec h

/-- What evaluates to `true` on the outcome of a list of choices holds of some
run. -/
theorem exists_of_exec (L : Lts σ α ε) (as : List α) (p : List ε × σ → Bool)
    (h : (L.exec L.init as).any p = true) : ∃ log s, L.Run log s ∧ p (log, s) = true := by
  obtain ⟨⟨log, s⟩, hexec, hp⟩ := (Option.any_eq_true _ _).mp h
  exact ⟨log, s, of_exec hexec, hp⟩

/-- The induction rule: a property that holds initially and that each step
carries over holds of every run. -/
theorem invariant {P : List ε → σ → Prop} (hinit : P [] L.init)
    (hstep : ∀ {log s a es s'}, L.Run log s → P log s → L.step s a = some (es, s') →
      P (log ++ es) s')
    {log : List ε} {s : σ} (h : L.Run log s) : P log s := by
  induction h with
  | init => exact hinit
  | step hr hs ih => exact hstep hr ih hs

/-- The simulation rule: if each step out of related states is matched by a step
of `M` that reports the translated events and leads to related states again,
every run is a run of `M`. -/
theorem simulate {τ : Type u} {β : Type v} {δ : Type w} {M : Lts τ β δ} {f : ε → δ}
    {R : σ → τ → Prop} (hinit : R L.init M.init)
    (hstep : ∀ {s t a es s'}, R s t → L.step s a = some (es, s') →
      ∃ b t', M.step t b = some (es.map f, t') ∧ R s' t')
    {log : List ε} {s : σ} (h : L.Run log s) : ∃ t, M.Run (log.map f) t ∧ R s t := by
  induction h with
  | init => exact ⟨M.init, .init, hinit⟩
  | step hr hs ih =>
      obtain ⟨t, hrun, hrel⟩ := ih
      obtain ⟨b, t', ht, hrel'⟩ := hstep hrel hs
      rw [List.map_append]
      exact ⟨t', hrun.step ht, hrel'⟩

/-- The same where a step may be matched by any number of steps, none included, and
the events are not compared. -/
theorem simulate_exec {τ : Type u} {β : Type v} {δ : Type w} {M : Lts τ β δ} {R : σ → τ → Prop}
    (hinit : R L.init M.init)
    (hstep : ∀ {log s a es s' t}, L.Run log s → L.step s a = some (es, s') → R s t →
      ∃ bs fs t', M.exec t bs = some (fs, t') ∧ R s' t')
    {log : List ε} {s : σ} (h : L.Run log s) : ∃ log' t, M.Run log' t ∧ R s t := by
  induction h with
  | init => exact ⟨[], M.init, .init, hinit⟩
  | step hr hs ih =>
      obtain ⟨log', t, hrun, hrel⟩ := ih
      obtain ⟨bs, fs, t', hexec, hrel'⟩ := hstep hr hs hrel
      exact ⟨log' ++ fs, t', hrun.exec hexec, hrel'⟩

end Run

namespace RunWhere

variable {L} {ok : List ε → σ → List ε → Prop}

/-- Forgetting the condition. -/
theorem run {log : List ε} {s : σ} (h : L.RunWhere ok log s) : L.Run log s := by
  induction h with
  | init => exact .init
  | step _ hs _ ih => exact ih.step hs

/-- A condition that every step of a run meets. -/
theorem of_run (hok : ∀ {log s a es s'}, L.Run log s → L.step s a = some (es, s') → ok log s es)
    {log : List ε} {s : σ} (h : L.Run log s) : L.RunWhere ok log s := by
  induction h with
  | init => exact .init
  | step hr hs ih => exact ih.step hs (hok hr hs)

/-- A condition that implies another one on each step of a run. -/
theorem imp {ok' : List ε → σ → List ε → Prop}
    (hok : ∀ {log s a es s'}, L.Run log s → L.step s a = some (es, s') → ok log s es →
      ok' log s es)
    {log : List ε} {s : σ} (h : L.RunWhere ok log s) : L.RunWhere ok' log s := by
  induction h with
  | init => exact .init
  | step hr hs ho ih => exact ih.step hs (hok hr.run hs ho)

/-- A checked list of choices continues a run that meets the condition, and is
executed without the check as well. -/
theorem exec_checked [∀ log s es, Decidable (ok log s es)] {log log' : List ε} {s s' : σ}
    {as : List α} (h : L.RunWhere ok log s) (he : L.execWhere ok log s as = some (log', s')) :
    L.RunWhere ok log' s' ∧ ∃ es, L.exec s as = some (es, s') ∧ log' = log ++ es := by
  induction as generalizing log s with
  | nil =>
      rw [Lts.execWhere, Option.some.injEq, Prod.mk.injEq] at he
      obtain ⟨rfl, rfl⟩ := he
      exact ⟨h, [], rfl, (List.append_nil _).symm⟩
  | cons a as ih =>
      rw [Lts.execWhere, Option.bind_eq_some_iff] at he
      obtain ⟨⟨es, s₁⟩, hstep, hrest⟩ := he
      split at hrest
      case isFalse => contradiction
      case isTrue hok =>
        obtain ⟨hr, es', hexec, rfl⟩ := ih (h.step hstep hok) hrest
        exact ⟨hr, es ++ es', L.exec_cons_eq_some.mpr ⟨es, s₁, es', hstep, hexec, rfl⟩,
          List.append_assoc _ _ _⟩

/-- What evaluates to `true` on the outcome of a checked list of choices holds of
some run that meets the condition. -/
theorem exists_of_exec (L : Lts σ α ε) (ok : List ε → σ → List ε → Prop)
    [∀ log s es, Decidable (ok log s es)] (as : List α) (p : List ε × σ → Bool)
    (h : (L.execWhere ok [] L.init as).any p = true) :
    ∃ log s, L.RunWhere ok log s ∧ p (log, s) = true := by
  have hcont : ∀ (as : List α) (log : List ε) (s : σ), L.RunWhere ok log s →
      (L.execWhere ok log s as).any p = true →
        ∃ log s, L.RunWhere ok log s ∧ p (log, s) = true := by
    intro as
    induction as with
    | nil => exact fun log s hr hp => ⟨log, s, hr, hp⟩
    | cons a as ih =>
        intro log s hr hp
        rw [execWhere] at hp
        cases hstep : L.step s a with
        | none => simp [hstep] at hp
        | some q =>
            obtain ⟨es, s'⟩ := q
            rw [hstep, Option.bind_some] at hp
            split at hp
            · next hok => exact ih _ _ (hr.step hstep hok) hp
            · contradiction
  exact hcont as [] L.init .init h

/-- The induction rule, with the condition met by each step. -/
theorem invariant {P : List ε → σ → Prop} (hinit : P [] L.init)
    (hstep : ∀ {log s a es s'}, L.Run log s → P log s → L.step s a = some (es, s') →
      ok log s es → P (log ++ es) s')
    {log : List ε} {s : σ} (h : L.RunWhere ok log s) : P log s := by
  induction h with
  | init => exact hinit
  | step hr hs ho ih => exact hstep hr.run ih hs ho

end RunWhere

/-- A property that each step out of it preserves still holds after an
execution. -/
theorem exec_preserves {P : σ → Prop}
    (hstep : ∀ {s a es s'}, P s → L.step s a = some (es, s') → P s')
    {s s' : σ} {as : List α} {es : List ε} (h : L.exec s as = some (es, s')) (hs : P s) :
    P s' := by
  induction as generalizing s es with
  | nil =>
      simp only [exec_nil, Option.some.injEq, Prod.mk.injEq] at h
      exact h.2 ▸ hs
  | cons a as ih =>
      obtain ⟨_, _, _, h₁, h₂, -⟩ := L.exec_cons_eq_some.mp h
      exact ih h₂ (hstep hs h₁)

/-- If every step with a choice satisfying `A` lowers `μ` and keeps `P`, then
`μ` bounds the length of every execution by such choices. -/
theorem exec_length_le {P : σ → Prop} {A : α → Prop} (μ : σ → Nat)
    (hstep : ∀ {s a es s'}, A a → P s → L.step s a = some (es, s') → P s' ∧ μ s' < μ s)
    {s s' : σ} {as : List α} {es : List ε} (hA : ∀ a ∈ as, A a)
    (h : L.exec s as = some (es, s')) (hs : P s) : as.length + μ s' ≤ μ s := by
  induction as generalizing s es with
  | nil =>
      simp only [exec_nil, Option.some.injEq, Prod.mk.injEq] at h
      simp [h.2]
  | cons a as ih =>
      obtain ⟨_, _, _, h₁, h₂, -⟩ := L.exec_cons_eq_some.mp h
      obtain ⟨hp, hlt⟩ := hstep (hA a List.mem_cons_self) hs h₁
      have hle := ih (fun b hb => hA b (List.mem_cons_of_mem a hb)) h₂ hp
      rw [List.length_cons]
      omega

/-- If every step lowers `μ`, but for what its events pay, then `μ` and what has
been paid bound the length of every execution. -/
theorem exec_length_le_of_cost {P : σ → Prop} (μ : σ → Nat) (cost : List ε → Nat)
    (hcost : ∀ es es', cost (es ++ es') = cost es + cost es')
    (hstep : ∀ {s a es s'}, P s → L.step s a = some (es, s') → P s' ∧ μ s' < μ s + cost es)
    {s s' : σ} {as : List α} {es : List ε} (h : L.exec s as = some (es, s')) (hs : P s) :
    as.length + μ s' ≤ μ s + cost es := by
  induction as generalizing s es with
  | nil =>
      simp only [exec_nil, Option.some.injEq, Prod.mk.injEq] at h
      rw [h.2, List.length_nil, Nat.zero_add]
      exact Nat.le_add_right _ _
  | cons a as ih =>
      obtain ⟨es₁, s₁, es₂, h₁, h₂, rfl⟩ := L.exec_cons_eq_some.mp h
      obtain ⟨hp, hlt⟩ := hstep hs h₁
      have hle := ih h₂ hp
      rw [List.length_cons, hcost]
      omega

/-- If every step with a choice allowed by `A` lowers `μ` and keeps `P`, some
execution of such steps cannot be extended by another one. -/
theorem exists_maximal {P : σ → Prop} {A : σ → α → Prop} (μ : σ → Nat)
    (hstep : ∀ {s a es s'}, A s a → P s → L.step s a = some (es, s') → P s' ∧ μ s' < μ s)
    {s : σ} (hs : P s) : ∃ as es s', L.exec s as = some (es, s') ∧ P s' ∧
      ∀ a, A s' a → L.step s' a = none := by
  induction hm : μ s using Nat.strongRecOn generalizing s with
  | ind m ih =>
      by_cases hstuck : ∀ a, A s a → L.step s a = none
      · exact ⟨[], [], s, rfl, hs, hstuck⟩
      · obtain ⟨a, ha⟩ := Classical.not_forall.mp hstuck
        obtain ⟨hA, hne⟩ := Classical.not_imp.mp ha
        obtain ⟨⟨es, s₁⟩, h₁⟩ := Option.isSome_iff_exists.mp (Option.isSome_iff_ne_none.mpr hne)
        obtain ⟨hp, hlt⟩ := hstep hA hs h₁
        obtain ⟨as, es', s', hexec, hp', hend⟩ := ih (μ s₁) (hm ▸ hlt) hp rfl
        exact ⟨a :: as, es ++ es', s', L.exec_cons_eq_some.mpr ⟨es, s₁, es', h₁, hexec, rfl⟩, hp',
          hend⟩

end Lts

end ConcurrencyLab
