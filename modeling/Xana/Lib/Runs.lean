import Mathlib.Data.List.Basic

/-!
# Runs of a labelled transition system

A system is a step relation `step : σ → α → σ → Prop` between states, one label
per operation. Its reachable states are the least set containing the initial
states and closed under the steps; what a proof about a system wants from them
is one thing only, the *invariant rule* `Reach.invariant`.

Two refinements are needed throughout. The first is that a run may be
*restricted*: a condition `ok s a` on the state before a step and on its label
says which steps the run is allowed to take, and
`Reach` carries it, so that “in every run whose steps all meet
the condition” is a reachability statement like any other
(`Reach.mono` relaxes the condition). The second is that a
deterministic system is a partial function `f : σ → α → Option σ`; then a finite
list of labels *computes* a state, and `Reach.of_exec` turns such
a computation into a run (`Reach.of_guarded`, if the run is restricted).

A system can also be compared with a deterministic one whose first state is only known when the
run is over: then the steps are matched from the end (`Path.exec_of_backward`).

A loop whose end is not in sight is a computation in rounds, `f : ℕ → Option α`:
what it gives in at most `n` rounds. It `Returns` what it gives in all
large numbers of rounds.
-/

namespace Xana

section Reach

variable {σ α : Type*}

/-- The states reached from `init` by steps each of which meets `ok`. -/
inductive Reach (step : σ → α → σ → Prop) (ok : σ → α → Prop) (init : σ → Prop) : σ → Prop
  /-- Every initial state is reached. -/
  | init {s : σ} : init s → Reach step ok init s
  /-- An allowed step from a reached state reaches its target. -/
  | step {s : σ} {a : α} {s' : σ} :
      Reach step ok init s → ok s a → step s a s' → Reach step ok init s'

/-- The condition of an unrestricted run. -/
abbrev anyStep : σ → α → Prop := fun _ _ => True

variable {step : σ → α → σ → Prop} {ok ok' : σ → α → Prop} {init : σ → Prop}

/-- **The invariant rule**: what holds initially and is kept by every allowed
step holds of every reached state. -/
theorem Reach.invariant {P : σ → Prop} (h0 : ∀ s, init s → P s)
    (hstep : ∀ s a s', P s → ok s a → step s a s' → P s') {s : σ}
    (h : Reach step ok init s) : P s := by
  induction h with
  | init hi => exact h0 _ hi
  | step _ hok hs ih => exact hstep _ _ _ ih hok hs

/-- A run that meets a stronger condition is a run. -/
theorem Reach.mono (hok : ∀ s a, ok s a → ok' s a) {s : σ} (h : Reach step ok init s) :
    Reach step ok' init s := by
  induction h with
  | init hi => exact .init hi
  | step _ hs hst ih => exact ih.step (hok _ _ hs) hst

end Reach

section Exec

variable {σ α : Type*}

/-- The state a list of labels computes, in a deterministic system. -/
def exec (f : σ → α → Option σ) : σ → List α → Option σ
  | s, [] => some s
  | s, a :: as => (f s a).bind fun s' => exec f s' as

/-- **A computation is a run**: the states an unrestricted list of labels
computes are reached. -/
theorem Reach.of_exec {f : σ → α → Option σ} {init : σ → Prop} :
    ∀ {as : List α} {s s' : σ}, Reach (fun s a s' => f s a = some s') anyStep init s →
      exec f s as = some s' → Reach (fun s a s' => f s a = some s') anyStep init s'
  | [], s, s', h, he => by
    obtain rfl : s = s' := by simpa [exec] using he
    exact h
  | a :: as, s, s', h, he => by
    obtain ⟨t, ht, hrest⟩ : ∃ t, f s a = some t ∧ exec f t as = some s' := by
      simpa [exec, Option.bind_eq_some_iff] using he
    exact Reach.of_exec (h.step trivial ht) hrest

/-- The steps of a function that meet a condition. -/
def guarded (f : σ → α → Option σ) (ok : σ → α → Prop) [∀ s a, Decidable (ok s a)] (s : σ) (a : α) :
    Option σ := if ok s a then f s a else none

/-- A computation whose steps meet the condition is a run that meets it. -/
theorem Reach.of_guarded {f : σ → α → Option σ} {ok : σ → α → Prop}
    [∀ s a, Decidable (ok s a)] {init : σ → Prop} :
    ∀ {as : List α} {s s' : σ}, Reach (fun s a s' => f s a = some s') ok init s →
      exec (guarded f ok) s as = some s' → Reach (fun s a s' => f s a = some s') ok init s'
  | [], s, s', h, he => by
    obtain rfl : s = s' := by simpa [exec] using he
    exact h
  | a :: as, s, s', h, he => by
    obtain ⟨t, ht, hrest⟩ : ∃ t, guarded f ok s a = some t ∧
        exec (guarded f ok) t as = some s' := by
      simpa [exec, Option.bind_eq_some_iff] using he
    rw [guarded] at ht
    split_ifs at ht with hok
    exact Reach.of_guarded (h.step hok ht) hrest

/-- **A path** takes a list of labels from one state to another. -/
inductive Path (step : σ → α → σ → Prop) : σ → List α → σ → Prop
  | nil (s : σ) : Path step s [] s
  | cons {s t u : σ} {a : α} {as : List α} :
      step s a t → Path step t as u → Path step s (a :: as) u

/-- **Backward simulation**: when each step can be matched from its end, so can a path. -/
theorem Path.exec_of_backward {τ : Type*} {step : σ → α → σ → Prop} {f : τ → α → Option τ}
    {R : σ → τ → Prop}
    (h : ∀ {s a s' t'}, step s a s' → R s' t' → ∃ t, R s t ∧ f t a = some t')
    {s s' : σ} {as : List α} {t' : τ} (hpath : Path step s as s') (ht' : R s' t') :
    ∃ t, R s t ∧ exec f t as = some t' := by
  induction hpath with
  | nil s => exact ⟨t', ht', rfl⟩
  | cons hstep hrest ih =>
    obtain ⟨u, hu, hexec⟩ := ih ht'
    obtain ⟨t, ht, hf⟩ := h hstep hu
    exact ⟨t, ht, by rw [exec, hf, Option.bind_some, hexec]⟩

end Exec

section Returns

variable {α : Type*}

/-- A computation in rounds returns `a`: so many rounds give it, and any more. -/
def Returns (f : ℕ → Option α) (a : α) : Prop := ∃ k, ∀ n ≥ k, f n = some a

/-- More rounds do not change a result. -/
def MonoRounds (f : ℕ → Option α) : Prop := ∀ n a, f n = some a → f (n + 1) = some a

variable {f : ℕ → Option α} {a b : α} {k : ℕ}

theorem MonoRounds.of_ge (h : MonoRounds f) (hk : f k = some a) {n : ℕ} (hn : k ≤ n) :
    f n = some a := by
  induction hn with
  | refl => exact hk
  | step _ ih => exact h _ a ih

/-- A result is returned. -/
theorem MonoRounds.returns (h : MonoRounds f) (hk : f k = some a) : Returns f a :=
  ⟨k, fun _ hn => h.of_ge hk hn⟩

theorem MonoRounds.const (a : Option α) : MonoRounds fun _ => a := fun _ _ h => h

theorem MonoRounds.bind {β : Type*} (h : MonoRounds f) {g : ℕ → α → Option β}
    (hg : ∀ a, MonoRounds fun n => g n a) : MonoRounds fun n => (f n).bind (g n) := by
  rintro n b hb
  obtain ⟨a, ha, hb⟩ := Option.bind_eq_some_iff.mp hb
  exact Option.bind_eq_some_iff.mpr ⟨a, h n a ha, hg a n b hb⟩

theorem MonoRounds.ite {p : Prop} [Decidable p] {g : ℕ → Option α} (h : MonoRounds f)
    (hg : MonoRounds g) : MonoRounds fun n => if p then f n else g n := by
  split_ifs
  · exact h
  · exact hg

/-- It returns one thing. -/
theorem Returns.unique (h : Returns f a) (h' : Returns f b) : a = b := by
  obtain ⟨k, hk⟩ := h
  obtain ⟨k', hk'⟩ := h'
  exact Option.some.inj ((hk (max k k') (Nat.le_max_left ..)).symm.trans
    (hk' _ (Nat.le_max_right ..)))

/-- There are rounds, as many as one likes, in which it does. -/
theorem Returns.exists_ge (h : Returns f a) (k : ℕ) : ∃ n ≥ k, f n = some a := by
  obtain ⟨k', hk'⟩ := h
  exact ⟨max k k', Nat.le_max_left .., hk' _ (Nat.le_max_right ..)⟩

theorem Returns.const (a : α) : Returns (fun _ => some a) a := ⟨0, fun _ _ => rfl⟩

/-- One computation behind another. -/
theorem Returns.bind {β : Type*} {g : ℕ → α → Option β} {c : β} (h : Returns f a)
    (hg : Returns (fun n => g n a) c) : Returns (fun n => (f n).bind (g n)) c := by
  obtain ⟨k, hk⟩ := h
  obtain ⟨k', hk'⟩ := hg
  refine ⟨max k k', fun n hn => ?_⟩
  change (f n).bind (g n) = some c
  rw [hk n (Nat.le_trans (Nat.le_max_left ..) hn), Option.bind_some]
  exact hk' n (Nat.le_trans (Nat.le_max_right ..) hn)

theorem Returns.map {β : Type*} (h : Returns f a) (g : α → β) :
    Returns (fun n => (f n).map g) (g a) := by
  obtain ⟨k, hk⟩ := h
  exact ⟨k, fun n hn => congrArg (Option.map g) (hk n hn)⟩

theorem Returns.congr {g : ℕ → Option α} (h : Returns g a) (hf : ∀ n, f n = g n) : Returns f a := by
  obtain ⟨k, hk⟩ := h
  exact ⟨k, fun n hn => (hf n).trans (hk n hn)⟩

/-- One round in front. -/
theorem Returns.of_succ {g : ℕ → Option α} (h : Returns g a) (hf : ∀ n, f (n + 1) = g n) :
    Returns f a := by
  obtain ⟨k, hk⟩ := h
  refine ⟨k + 1, fun n hn => ?_⟩
  obtain ⟨n, rfl⟩ := Nat.exists_eq_succ_of_ne_zero (Nat.ne_zero_of_lt hn)
  exact (hf n).trans (hk n (Nat.le_of_succ_le_succ hn))

end Returns

end Xana
