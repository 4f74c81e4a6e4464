import Mathlib.Algebra.Order.Ring.Nat
import Mathlib.Data.List.Basic
import Mathlib.Data.List.Nodup

/-!
# Runs of labelled transition systems

A system is a relation `step s e t`: the event `e` leads from `s` to `t`.  A
run is a finite sequence of events, read from left to right, and it grows at
its end, so that a property of a whole history is proved by looking at the
last event only.

Main results:

- Theorem `Run.invariant`: what the initial state has and each step keeps holds
  in every reached state.
- Theorem `Run.history`: the same for a property of the state and of the
  events so far.
- Theorem `Run.simulate`: a step-by-step simulation maps runs to runs.
- Theorem `Run.forward`: so does a simulation relation, and it keeps the events.
- Theorem `Run.since`: what an event establishes holds until an event of another kind.
- Theorem `Run.fifo`: a queue whose steps append and take from the front gives its elements
  back in the order in which it got them.
- Theorem `Run.amortized`: steps that a potential pays for are as many as the credit allows.
- Theorems `exec_run` and `record_run`: executing a partial step function
  gives a run, so that a concrete run can be found by evaluation.
- Theorem `calls_refine`: an implementation that refines a specification call by call is
  defined on every sequence of calls and gives its answers.
-/

namespace Lts

variable {σ τ ε α β : Type*}

/-- `Run step s es t`: the events `es`, in order, lead from `s` to `t`. -/
inductive Run (step : σ → ε → σ → Prop) (s : σ) : List ε → σ → Prop
  | nil : Run step s [] s
  | snoc {es : List ε} {e : ε} {t u : σ} :
      Run step s es t → step t e u → Run step s (es ++ [e]) u

/-- A state is reachable when some run ends in it. -/
def Reachable (step : σ → ε → σ → Prop) (s t : σ) : Prop :=
  ∃ es, Run step s es t

namespace Run

variable {step step' : σ → ε → σ → Prop} {s t u : σ} {es es' : List ε}

/-- A single step is a run. -/
theorem single {e : ε} (h : step s e t) : Run step s [e] t := by
  simpa using Run.snoc Run.nil h

/-- Runs compose. -/
theorem trans (h : Run step s es t) (h' : Run step t es' u) :
    Run step s (es ++ es') u := by
  induction h' with
  | nil => simpa using h
  | snoc _ hstep ih =>
      rw [← List.append_assoc]
      exact ih.snoc hstep

/-- A run of a system is a run of every larger system. -/
theorem mono (hsub : ∀ t e u, step t e u → step' t e u)
    (h : Run step s es t) : Run step' s es t := by
  induction h with
  | nil => exact Run.nil
  | snoc _ hstep ih => exact ih.snoc (hsub _ _ _ hstep)

/-- A run whose steps see a part of their events only. -/
theorem map {stepA : σ → α → σ → Prop} (f : ε → α)
    (h : Run (fun s e t => stepA s (f e) t) s es t) : Run stepA s (es.map f) t := by
  induction h with
  | nil => exact Run.nil
  | snoc _ hstep ih =>
      rw [List.map_append]
      exact ih.snoc hstep

/-- The invariant rule. -/
theorem invariant {I : σ → Prop} (h : Run step s es t) (hinit : I s)
    (hstep : ∀ t e u, I t → step t e u → I u) : I t := by
  induction h with
  | nil => exact hinit
  | snoc _ hlast ih => exact hstep _ _ _ ih hlast

/-- The invariant rule with the help of a property that every reachable state is
known to have. -/
theorem invariant_of {I J : σ → Prop} (h : Run step s es t)
    (hknown : ∀ es u, Run step s es u → J u) (hinit : I s)
    (hstep : ∀ t e u, J t → I t → step t e u → I u) : I t := by
  induction h with
  | nil => exact hinit
  | snoc hrun hlast ih => exact hstep _ _ _ (hknown _ _ hrun) ih hlast

/-- The invariant rule for a property of the state and of the events so far. -/
theorem history {I : List ε → σ → Prop} (h : Run step s es t)
    (hinit : I [] s)
    (hstep : ∀ es t e u, I es t → step t e u → I (es ++ [e]) u) : I es t := by
  induction h with
  | nil => exact hinit
  | snoc _ hlast ih => exact hstep _ _ _ _ ih hlast

/-- The same with the help of a property that every reachable state is known to have. -/
theorem history_of {I : List ε → σ → Prop} {J : σ → Prop} (h : Run step s es t)
    (hknown : ∀ es u, Run step s es u → J u) (hinit : I [] s)
    (hstep : ∀ es t e u, J t → I es t → step t e u → I (es ++ [e]) u) : I es t := by
  induction h with
  | nil => exact hinit
  | snoc hrun hlast ih => exact hstep _ _ _ _ (hknown _ _ hrun) ih hlast

/-- A simulation in which every step is matched by at most one step: the image
of a run is a run. -/
theorem simulate {stepA : τ → α → τ → Prop} (abs : σ → τ)
    (hsim : ∀ t e u, step t e u →
      abs u = abs t ∨ ∃ e', stepA (abs t) e' (abs u))
    (h : Run step s es t) : Reachable stepA (abs s) (abs t) := by
  induction h with
  | nil => exact ⟨[], Run.nil⟩
  | snoc _ hstep ih =>
      rcases hsim _ _ _ hstep with heq | ⟨e', hmatch⟩
      · rwa [heq]
      · obtain ⟨es, hrun⟩ := ih
        exact ⟨es ++ [e'], hrun.snoc hmatch⟩

/-- A forward simulation: every step of related states is matched by a step with the
same event. -/
theorem forward {stepA : τ → ε → τ → Prop} {R : σ → τ → Prop} {a : τ}
    (h : Run step s es t) (hinit : R s a)
    (hsim : ∀ t e u b, step t e u → R t b → ∃ c, stepA b e c ∧ R u c) :
    ∃ b, Run stepA a es b ∧ R t b := by
  induction h with
  | nil => exact ⟨a, Run.nil, hinit⟩
  | snoc _ hlast ih =>
      obtain ⟨b, hrun, hrel⟩ := ih
      obtain ⟨c, hmatch, hrel'⟩ := hsim _ _ _ _ hlast hrel
      exact ⟨c, hrun.snoc hmatch, hrel'⟩

end Run

/-! ## Since an event -/

/-- A sequence that is extended by one event is split in it or at it. -/
theorem snoc_eq_append_cons {es pre post : List ε} {e d : ε}
    (h : es ++ [e] = pre ++ d :: post) :
    (pre = es ∧ d = e ∧ post = []) ∨
      ∃ post', post = post' ++ [e] ∧ es = pre ++ d :: post' := by
  rcases List.eq_nil_or_concat post with rfl | ⟨post', last, rfl⟩
  · obtain ⟨hpre, hlast⟩ := List.append_inj' h rfl
    exact Or.inl ⟨hpre.symm, (List.singleton_inj.mp hlast).symm, rfl⟩
  · rw [List.concat_eq_append, ← List.cons_append, ← List.append_assoc] at h
    obtain ⟨hpre, hlast⟩ := List.append_inj' h rfl
    rw [List.singleton_inj.mp hlast]
    exact Or.inr ⟨post', List.concat_eq_append, hpre⟩

/-- An event of the first kind has happened, and none of the second kind since. -/
def Since (begins ends : ε → Prop) (es : List ε) : Prop :=
  ∃ pre e post, es = pre ++ e :: post ∧ begins e ∧ ∀ d ∈ post, ¬ ends d

/-- One more event begins the period, or does not end it. -/
theorem since_snoc {begins ends : ε → Prop} {es : List ε} {e : ε}
    (h : Since begins ends (es ++ [e])) :
    begins e ∨ Since begins ends es ∧ ¬ ends e := by
  obtain ⟨pre, d, post, heq, hbegins, hnot⟩ := h
  rcases snoc_eq_append_cons heq with ⟨-, rfl, -⟩ | ⟨post', rfl, rfl⟩
  · exact Or.inl hbegins
  · exact Or.inr ⟨⟨pre, d, post', rfl, hbegins, fun a ha => hnot a (by simp [ha])⟩,
      hnot e (by simp)⟩

/-- What holds after an event of the first kind, and is kept by each event that is not
of the second kind, holds as long as none of these has happened. -/
theorem Run.since {step : σ → ε → σ → Prop} {s t : σ} {es : List ε} {Q : σ → Prop}
    {begins ends : ε → Prop} (h : Run step s es t)
    (hbegins : ∀ t e u, step t e u → begins e → Q u)
    (hkeeps : ∀ t e u, step t e u → ¬ ends e → Q t → Q u)
    (hsince : Since begins ends es) : Q t := by
  induction h with
  | nil =>
      obtain ⟨pre, e, post, hnil, -⟩ := hsince
      simp at hnil
  | snoc _ hlast ih =>
      rcases since_snoc hsince with hbegin | ⟨hsince, hnot⟩
      · exact hbegins _ _ _ hlast hbegin
      · exact hkeeps _ _ _ hlast hnot (ih hsince)

/-! ## Queues -/

/-- What has been in a queue and what has been put into it is, in order, what has been
taken from it and what is left. -/
theorem Run.fifo {step : σ → ε → σ → Prop} {s t : σ} {es : List ε}
    (contents : σ → List β) (ins outs : ε → List β) (h : Run step s es t)
    (hstep : ∀ t e u, step t e u → contents t ++ ins e = outs e ++ contents u) :
    contents s ++ es.flatMap ins = es.flatMap outs ++ contents t := by
  induction h with
  | nil => simp
  | snoc _ hlast ih =>
      rw [List.flatMap_append, List.flatMap_append, ← List.append_assoc, ih,
        List.append_assoc, List.append_assoc, List.flatMap_singleton, List.flatMap_singleton,
        hstep _ _ _ hlast]

/-! ## Amortized costs -/

/-- What the events of a kind are together. -/
def total (cost : ε → Nat) (es : List ε) : Nat :=
  (es.map cost).sum

theorem total_snoc (cost : ε → Nat) (es : List ε) (e : ε) :
    total cost (es ++ [e]) = total cost es + cost e := by
  simp [total]

theorem total_zero (es : List ε) : total (fun _ => 0) es = 0 := by
  simp [total, List.map_const']

/-- Events of a kind that cost one each are counted. -/
theorem total_toNat (p : ε → Bool) (es : List ε) :
    total (fun e => (p e).toNat) es = es.countP p := by
  induction es with
  | nil => rfl
  | cons e es ih =>
      simp only [total, List.map_cons, List.sum_cons, List.countP_cons] at ih ⊢
      rw [ih]
      cases p e <;> simp [Nat.add_comm]

/-- The potential rule: where each step is paid for by the potential, by what the event
brings and by the credit that the state gains, so is a whole run. -/
theorem Run.amortized {step : σ → ε → σ → Prop} {s t : σ} {es : List ε} {J : σ → Prop}
    (potential credit : σ → Nat) (cost gain : ε → Nat) (h : Run step s es t)
    (hknown : ∀ es u, Run step s es u → J u)
    (hstep : ∀ t e u, J t → step t e u →
      cost e + potential u + credit t ≤ potential t + credit u + gain e) :
    total cost es + potential t + credit s ≤ potential s + credit t + total gain es := by
  induction h with
  | nil => simp [total]
  | snoc hrun hlast ih =>
      rw [total_snoc, total_snoc]
      have hpaid := hstep _ _ _ (hknown _ _ hrun) hlast
      omega

/-- The sum of a function over a list without repetitions, when one value changes. -/
theorem sum_map_change {xs : List α} (hnodup : xs.Nodup) {x : α} (hx : x ∈ xs)
    {f g : α → Nat} (hother : ∀ y, y ≠ x → g y = f y) :
    (xs.map g).sum + f x = (xs.map f).sum + g x := by
  obtain ⟨pre, post, rfl⟩ := List.append_of_mem hx
  have hmiddle := List.nodup_middle.mp hnodup
  have hne : ∀ y ∈ pre ++ post, y ≠ x := by
    rintro y hy rfl
    exact (List.nodup_cons.mp hmiddle).1 hy
  have hpre : pre.map g = pre.map f :=
    List.map_congr_left fun y hy => hother y (hne y (List.mem_append_left _ hy))
  have hpost : post.map g = post.map f :=
    List.map_congr_left fun y hy => hother y (hne y (List.mem_append_right _ hy))
  simp only [List.map_append, List.map_cons, List.sum_append, List.sum_cons, hpre, hpost]
  omega

/-- The sum of a function over a list, when each value grows by at most a constant. -/
theorem sum_map_le_add {xs : List α} {f g : α → Nat} {b : Nat} (h : ∀ x ∈ xs, g x ≤ f x + b) :
    (xs.map g).sum ≤ (xs.map f).sum + xs.length * b := by
  induction xs with
  | nil => simp
  | cons x xs ih =>
      have hx := h x (List.mem_cons_self ..)
      have hxs := ih fun y hy => h y (List.mem_cons_of_mem _ hy)
      simp only [List.map_cons, List.sum_cons, List.length_cons, Nat.add_mul, Nat.one_mul]
      omega

/-! ## Executable systems -/

/-- Execute a partial step function over a list of labels. -/
def exec (next : σ → α → Option σ) : σ → List α → Option σ
  | s, [] => some s
  | s, a :: as => (next s a).bind fun t => exec next t as

/-- An execution is a run. -/
theorem exec_run {next : σ → α → Option σ} {s t : σ} {as : List α}
    (h : exec next s as = some t) :
    Run (fun s a t => next s a = some t) s as t := by
  induction as generalizing s with
  | nil =>
      cases h
      exact Run.nil
  | cons a as ih =>
      obtain ⟨u, hu, hrest⟩ := Option.bind_eq_some_iff.mp h
      exact (Run.single hu).trans (ih hrest)

/-- An execution whose steps pass a check is a run of such steps. -/
theorem exec_observe {γ : Type*} (ok : σ → α → Prop) [∀ s a, Decidable (ok s a)]
    (next : σ → α → Option σ) (s : σ) (as : List α) (obs : σ → γ) {v : γ}
    (h : (exec (fun s a => if ok s a then next s a else none) s as).map obs = some v) :
    ∃ t, Run (fun s a t => ok s a ∧ next s a = some t) s as t ∧ obs t = v := by
  obtain ⟨t, hexec, hobs⟩ := Option.map_eq_some_iff.mp h
  refine ⟨t, (exec_run hexec).mono ?_, hobs⟩
  intro s a t hstep
  split_ifs at hstep with hok
  exact ⟨hok, hstep⟩

/-- Execute a partial step function that answers each call, checking `ok`
on the states before and after each step, and record the calls with their
answers. -/
def record (ok : σ → α → σ → Bool) (next : σ → α → Option (β × σ)) :
    σ → List α → Option (List (α × β) × σ)
  | s, [] => some ([], s)
  | s, a :: as =>
      (next s a).bind fun bt =>
        if ok s a bt.2 then
          (record ok next bt.2 as).map fun r => ((a, bt.1) :: r.1, r.2)
        else none

/-- A recorded execution is a run whose steps all passed the check. -/
theorem record_run {ok : σ → α → σ → Bool} {next : σ → α → Option (β × σ)}
    {s t : σ} {as : List α} {es : List (α × β)}
    (h : record ok next s as = some (es, t)) :
    Run (fun s (e : α × β) t => ok s e.1 t = true ∧ next s e.1 = some (e.2, t))
      s es t := by
  induction as generalizing s es with
  | nil =>
      cases h
      exact Run.nil
  | cons a as ih =>
      simp only [record] at h
      obtain ⟨⟨b, u⟩, hu, hrest⟩ := Option.bind_eq_some_iff.mp h
      split at hrest
      · rename_i hok
        obtain ⟨⟨es', t'⟩, hrec, hcons⟩ := Option.map_eq_some_iff.mp hrest
        cases hcons
        exact (Run.single (e := (a, b)) ⟨hok, hu⟩).trans (ih hrec)
      · cases hrest

/-- A run whose observation has been computed. -/
theorem record_observe {γ : Type*} (ok : σ → α → σ → Prop)
    [∀ s a t, Decidable (ok s a t)] (next : σ → α → Option (β × σ)) (s : σ)
    (as : List α) (obs : List (α × β) → σ → γ) {v : γ}
    (h : (record (fun s a t => decide (ok s a t)) next s as).map
      (fun r => obs r.1 r.2) = some v) :
    ∃ es t, Run (fun s (e : α × β) t => ok s e.1 t ∧ next s e.1 = some (e.2, t))
      s es t ∧ obs es t = v := by
  obtain ⟨⟨es, t⟩, hrec, hobs⟩ := Option.map_eq_some_iff.mp h
  refine ⟨es, t, ?_, hobs⟩
  exact (record_run hrec).mono fun s e t hstep =>
    ⟨of_decide_eq_true hstep.1, hstep.2⟩

/-! ## Specifications -/

/-- The answers of a specification to a sequence of calls, and its state after them. -/
def answers (spec : σ → α → β × σ) : σ → List α → List β × σ
  | s, [] => ([], s)
  | s, a :: as =>
      ((spec s a).1 :: (answers spec (spec s a).2 as).1, (answers spec (spec s a).2 as).2)

/-- The answers of an implementation, whose calls need not be defined. -/
def calls (next : σ → α → Option (β × σ)) : σ → List α → Option (List β × σ)
  | s, [] => some ([], s)
  | s, a :: as =>
      (next s a).bind fun bt => (calls next bt.2 as).map fun r => (bt.1 :: r.1, r.2)

/-- Data refinement: where each call of the implementation is defined and does what the
specification does, so does every sequence of calls. -/
theorem calls_refine {next : σ → α → Option (β × σ)} {spec : τ → α → β × τ}
    {R : σ → τ → Prop}
    (hstep : ∀ s t a, R s t → ∃ s', next s a = some ((spec t a).1, s') ∧ R s' (spec t a).2)
    {s : σ} {t : τ} (h : R s t) (as : List α) :
    ∃ s', calls next s as = some ((answers spec t as).1, s') ∧
      R s' (answers spec t as).2 := by
  induction as generalizing s t with
  | nil => exact ⟨s, rfl, h⟩
  | cons a as ih =>
      obtain ⟨u, hnext, hrel⟩ := hstep s t a h
      obtain ⟨s', hcalls, hrel'⟩ := ih hrel
      refine ⟨s', ?_, hrel'⟩
      rw [calls, hnext, Option.bind_some, hcalls, Option.map_some]
      rfl

/-! ## Calls that may give up -/

section Comes

universe w

variable {ε : Type*} {α β : Type w} {ok ok' : Prop} {e : ε} {x : Except ε α} {P Q : α → Prop}

/-- The call ends, with the postcondition; or it gives up with the error `e`, which it does
not as long as `ok` holds.  There is no other error. -/
def Comes (ok : Prop) (e : ε) (x : Except ε α) (P : α → Prop) : Prop :=
  match x with
  | .ok a => P a
  | .error e' => e' = e ∧ ¬ ok

theorem Comes.bind {f : α → Except ε β} {R : β → Prop} (hx : Comes ok e x P)
    (hf : ∀ a, P a → Comes ok e (f a) R) : Comes ok e (x >>= f) R := by
  cases x with
  | ok a => exact hf a hx
  | error e' => exact hx

/-- What a call ends with goes on to the next one. -/
theorem bind_eq_ok {f : α → Except ε β} {b : β} (h : x >>= f = .ok b) :
    ∃ a, x = .ok a ∧ f a = .ok b := by
  cases x with
  | ok a => exact ⟨a, rfl, h⟩
  | error e' => cases h

theorem Comes.weaken (hx : Comes ok' e x P) (hok : ok → ok') (hpost : ∀ a, P a → Q a) :
    Comes ok e x Q := by
  cases x with
  | ok a => exact hpost a hx
  | error e' => exact ⟨hx.1, fun h => hx.2 (hok h)⟩

end Comes

end Lts
