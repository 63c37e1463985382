import EosShard.Common
import EosShard.Found.Machine

/-!
# Asynchronous initialisation

The queue of `init_async` requests of an `EosShardShardFile`. The first request starts a worker thread,
further ones wait, and the callback that receives the worker's result answers all that wait. Requests
made after that are answered at once, also those that the completion callback of another request makes
while the queue is being drained.

* `State`: the three fields of the object, and what GTask keeps: the workers, their results that are
  not delivered yet, and the tasks that have been returned.
* `Action`: what can happen. The draining loop goes one iteration at a time, so that a request can come
  between any two of them.
* `ok_of_run`: the shape of every state that a run reaches.
* `answersOnce`: **every request is answered exactly once**, with the one outcome of the one worker.
-/

namespace EosShard.AsyncInit

open EosShard.Found

/-! ## The object and its surroundings -/

/-- Source: `eos-shard-shard-file.c`, the values of `init_state`. -/
inductive InitState
  | notInitialized
  | initializing
  | initialized
  deriving DecidableEq

/-- What a task is returned with: an error, or `none` for `TRUE`. The errors are those of the library,
and those of GTask if the request is cancelled. -/
abbrev Outcome (ε : Type) := Option ε

/-- The object and the tasks around it. Tasks are numbered in the order of the requests. -/
structure State (ε : Type) where
  /-- `self->init_state`. -/
  initState : InitState
  /-- `self->init_results`. -/
  initResults : List ℕ
  /-- `self->init_error`. -/
  initError : Outcome ε
  /-- How many requests there have been. -/
  requests : ℕ
  /-- How many workers have been started. -/
  started : ℕ
  /-- How many of them are at work. -/
  running : ℕ
  /-- The results of the others that have not been delivered. -/
  posted : List (Outcome ε)
  /-- The results that have been delivered. -/
  delivered : List (Outcome ε)
  /-- Where the draining loop is in `init_results`, `none` outside of it. -/
  draining : Option ℕ
  /-- The tasks that have been returned, with their outcomes. -/
  returned : List (ℕ × Outcome ε)
  deriving DecidableEq

variable {ε : Type}

/-- A new object. -/
def State.new : State ε := ⟨.notInitialized, [], none, 0, 0, 0, [], [], none, []⟩

/-- A request.
Source: `eos-shard-shard-file.c`, `eos_shard_shard_file_init_async_internal`. -/
def initAsync (s : State ε) : State ε :=
  let task := s.requests
  match s.initState with
  | .notInitialized =>
      { s with
        requests := s.requests + 1
        initResults := s.initResults ++ [task]
        initState := .initializing
        started := s.started + 1
        running := s.running + 1 }
  | .initializing =>
      { s with
        requests := s.requests + 1
        initResults := s.initResults ++ [task] }
  | .initialized =>
      { s with
        requests := s.requests + 1
        returned := s.returned ++ [(task, s.initError)] }

/-- The worker returns its task.
Source: `eos-shard-shard-file.c`, `eos_shard_shard_file_init_async_task_fn`. -/
def initAsyncTaskFn (s : State ε) (outcome : Outcome ε) : Option (State ε) :=
  if 0 < s.running then
    some { s with running := s.running - 1, posted := s.posted ++ [outcome] }
  else none

/-- A result is delivered: the callback up to its loop.
Source: `eos-shard-shard-file.c`, `eos_shard_shard_file_init_async_ready`. -/
def initAsyncReady (s : State ε) : Option (State ε) :=
  match s.posted with
  | [] => none
  | outcome :: posted =>
      some { s with
        initState := .initialized
        initError := outcome
        posted := posted
        delivered := s.delivered ++ [outcome]
        draining := some 0 }

/-- One iteration of the loop of the callback, or, at its end, what stands behind it.
Source: `eos-shard-shard-file.c`, `eos_shard_shard_file_init_async_ready`. -/
def drain (s : State ε) : Option (State ε) :=
  match s.draining with
  | none => none
  | some i =>
      match s.initResults[i]? with
      | some task =>
          some { s with
            returned := s.returned ++ [(task, s.initError)]
            draining := some (i + 1) }
      | none => some { s with initResults := [], draining := none }

/-- What can happen. -/
inductive Action (ε : Type)
  /-- Somebody calls `init_async`. -/
  | initAsync
  /-- A worker ends. -/
  | taskFn (outcome : Outcome ε)
  /-- The main context delivers the result of a worker. -/
  | ready
  /-- The callback goes on. -/
  | drain
  deriving DecidableEq

/-- One step. -/
def step (s : State ε) : Action ε → Option (State ε)
  | .initAsync => some (initAsync s)
  | .taskFn outcome => initAsyncTaskFn s outcome
  | .ready => initAsyncReady s
  | .drain => drain s

/-! ## The states of a run -/

/-- The shapes of the states. -/
inductive Ok : State ε → Prop
  /-- Before the first request. -/
  | notInitialized : Ok State.new
  /-- The worker is at work, or its result is on its way: all requests wait. -/
  | initializing {n running : ℕ} {posted : List (Outcome ε)}
      (hworker : running + posted.length = 1) :
      Ok ⟨.initializing, List.range n, none, n, 1, running, posted, [], none, []⟩
  /-- The queue is being drained: its first `i` tasks have been returned. -/
  | draining {outcome : Outcome ε} {n i requests : ℕ} {returned : List (ℕ × Outcome ε)} (hi : i ≤ n)
      (hperm : (returned.map Prod.fst ++ (List.range n).drop i).Perm (List.range requests))
      (hsame : ∀ p ∈ returned, p.2 = outcome) :
      Ok ⟨.initialized, List.range n, outcome, requests, 1, 0, [], [outcome], some i, returned⟩
  /-- The queue has been drained. -/
  | drained {outcome : Outcome ε} {requests : ℕ} {returned : List (ℕ × Outcome ε)}
      (hperm : (returned.map Prod.fst).Perm (List.range requests))
      (hsame : ∀ p ∈ returned, p.2 = outcome) :
      Ok ⟨.initialized, [], outcome, requests, 1, 0, [], [outcome], none, returned⟩

/-- A task that is returned goes to the others. -/
theorem perm_concat {returned : List (ℕ × Outcome ε)} {l : List ℕ} {requests : ℕ}
    (h : (returned.map Prod.fst ++ l).Perm (List.range requests)) (outcome : Outcome ε) :
    ((returned ++ [(requests, outcome)]).map Prod.fst ++ l).Perm (List.range (requests + 1)) := by
  rw [List.range_succ, List.map_append, List.append_assoc]
  exact (List.perm_append_comm.append_left _).trans (by
    rw [← List.append_assoc]
    exact h.append_right [requests])

/-- What is true of the outcomes so far and of one more is true of all. -/
theorem forall_mem_concat {returned : List (ℕ × Outcome ε)} {outcome : Outcome ε}
    (h : ∀ p ∈ returned, p.2 = outcome) (task : ℕ) :
    ∀ p ∈ returned ++ [(task, outcome)], p.2 = outcome := by
  intro p hp
  rcases List.mem_append.mp hp with hp | hp
  · exact h p hp
  · rw [List.mem_singleton.mp hp]

/-- A request keeps the invariant. -/
theorem Ok.initAsync {s : State ε} (h : Ok s) : Ok (initAsync s) := by
  cases h with
  | notInitialized => exact .initializing (n := 1) rfl
  | @initializing n running posted hworker =>
      unfold AsyncInit.initAsync
      simp only
      rw [← List.range_succ]
      exact .initializing hworker
  | draining hi hperm hsame =>
      exact .draining hi (perm_concat hperm _) (forall_mem_concat hsame _)
  | @drained outcome requests returned hperm hsame =>
      refine .drained ?_ (forall_mem_concat hsame _)
      have := perm_concat (l := []) (by rwa [List.append_nil]) outcome
      rwa [List.append_nil] at this

/-! ## Steps that are not requests -/

/-- How many steps other than requests are left. -/
def pending (s : State ε) : ℕ :=
  (s.initResults.length + 3) * s.running + (s.initResults.length + 2) * s.posted.length +
    match s.draining with
    | none => 0
    | some i => s.initResults.length - i + 1

/-- The end of the task function keeps the invariant, and is one step less to take. -/
theorem Ok.taskFn {s s' : State ε} (h : Ok s) {outcome : Outcome ε}
    (hstep : initAsyncTaskFn s outcome = some s') : Ok s' ∧ pending s' + 1 = pending s := by
  unfold initAsyncTaskFn at hstep
  cases h with
  | notInitialized => cases hstep
  | @initializing n running posted hworker =>
      simp only [Option.ite_none_right_eq_some, Option.some.injEq] at hstep
      obtain ⟨hrunning, rfl⟩ := hstep
      have hone : running = 1 := by omega
      have hnil : posted = [] := List.length_eq_zero_iff.mp (by omega)
      subst hone hnil
      refine ⟨.initializing rfl, ?_⟩
      simp [pending]
  | draining => cases hstep
  | drained => cases hstep

/-- The call of the ready function keeps the invariant, and is one step less to take. -/
theorem Ok.ready {s s' : State ε} (h : Ok s) (hstep : initAsyncReady s = some s') :
    Ok s' ∧ pending s' + 1 = pending s := by
  unfold initAsyncReady at hstep
  cases h with
  | notInitialized => cases hstep
  | @initializing n running posted hworker =>
      cases posted with
      | nil => cases hstep
      | cons outcome posted =>
          cases hstep
          have hzero : running = 0 := by
            rw [List.length_cons] at hworker
            omega
          have hnil : posted = [] := List.length_eq_zero_iff.mp (by
            rw [List.length_cons] at hworker
            omega)
          subst hzero hnil
          refine ⟨.draining (Nat.zero_le n) (List.Perm.refl _) (List.forall_mem_nil _), ?_⟩
          simp [pending]
  | draining => cases hstep
  | drained => cases hstep

/-- One turn of its loop keeps the invariant, and is one step less to take. -/
theorem Ok.drain {s s' : State ε} (h : Ok s) (hstep : drain s = some s') :
    Ok s' ∧ pending s' + 1 = pending s := by
  unfold AsyncInit.drain at hstep
  cases h with
  | notInitialized => cases hstep
  | initializing hworker => cases hstep
  | @draining outcome n i requests returned hi hperm hsame =>
      by_cases hin : i < n
      · -- the task at the loop's place is returned, and the loop moves on
        have hget : (List.range n)[i]? = some i := List.getElem?_range hin
        simp only [hget, Option.some.injEq] at hstep
        subst hstep
        refine ⟨.draining hin ?_ (forall_mem_concat hsame _), ?_⟩
        · have hdrop : (List.range n).drop i = i :: (List.range n).drop (i + 1) := by
            rw [List.drop_eq_getElem_cons (by rwa [List.length_range]), List.getElem_range]
          rw [hdrop] at hperm
          rw [List.map_append, List.append_assoc]
          exact hperm
        · simp only [pending, List.length_range, List.length_nil]
          omega
      · have hget : (List.range n)[i]? = none := by simpa using hin
        simp only [hget, Option.some.injEq] at hstep
        subst hstep
        rw [List.drop_eq_nil_of_le (by simpa using hin), List.append_nil] at hperm
        refine ⟨.drained hperm hsame, ?_⟩
        simp only [pending, List.length_range, List.length_nil]
        omega
  | drained => cases hstep

/-- A step that is not a request. -/
theorem Ok.step_of_ne {s s' : State ε} {a : Action ε} (h : Ok s) (ha : a ≠ .initAsync)
    (hstep : step s a = some s') : Ok s' ∧ pending s' + 1 = pending s := by
  cases a with
  | initAsync => exact absurd rfl ha
  | taskFn outcome => exact h.taskFn hstep
  | ready => exact h.ready hstep
  | drain => exact h.drain hstep

/-- **Every run** stays in the shapes. -/
theorem ok_of_run {as : List (Action ε)} {s : State ε}
    (h : runActions step State.new as = some s) : Ok s := by
  refine runActions_rule (P := fun _ s => Ok s) .notInitialized (fun _ t a t' ht hstep => ?_) h
  by_cases ha : a = .initAsync
  · subst ha
    cases hstep
    exact ht.initAsync
  · exact (ht.step_of_ne ha hstep).1

/-- As long as something is pending, something can happen. -/
theorem Ok.exists_step {s : State ε} (h : Ok s) (hpending : 0 < pending s) :
    ∃ a, a ≠ .initAsync ∧ (step s a).isSome = true := by
  cases h with
  | notInitialized => cases hpending
  | @initializing n running posted hworker =>
      cases posted with
      | nil =>
          have hone : running = 1 := by
            rw [List.length_nil] at hworker
            omega
          exact ⟨.taskFn none, by simp, by simp [step, initAsyncTaskFn, hone]⟩
      | cons outcome posted => exact ⟨.ready, by simp, rfl⟩
  | @draining outcome n i requests returned hi hperm hsame =>
      refine ⟨.drain, by simp, ?_⟩
      unfold step AsyncInit.drain
      simp only
      cases (List.range n)[i]? <;> rfl
  | drained => simp [pending] at hpending

/-- When nothing is pending, every request has been answered. -/
theorem Ok.answered {s : State ε} (h : Ok s) (hpending : pending s = 0) :
    ∀ task < s.requests, task ∈ s.returned.map Prod.fst := by
  intro task htask
  cases h with
  | notInitialized => cases htask
  | initializing hworker =>
      simp only [pending, Nat.add_zero, Nat.add_eq_zero_iff, Nat.mul_eq_zero] at hpending
      omega
  | draining => simp [pending] at hpending
  | drained hperm => exact hperm.mem_iff.mpr (List.mem_range.mpr htask)

/-! ## Every request is answered exactly once -/

/-- What is promised in every state. -/
structure AnswersOnce (s : State ε) : Prop where
  /-- There is at most one worker. -/
  started_le : s.started ≤ 1
  /-- No task is returned twice. -/
  nodup : (s.returned.map Prod.fst).Nodup
  /-- What is returned is a request. -/
  lt_requests : ∀ p ∈ s.returned, p.1 < s.requests
  /-- It is returned with the worker's result, which has been delivered. -/
  same : ∀ p ∈ s.returned, s.delivered = [p.2]
  /-- Behind the callback nothing is left to do, and all requests so far have been answered. -/
  behind_ready : s.delivered ≠ [] → s.draining = none →
    s.initResults = [] ∧ s.initState = .initialized ∧
      ∀ task < s.requests, task ∈ s.returned.map Prod.fst
  /-- From here on there are at most `pending s` steps that are not requests. After that many all
  requests have been answered; before, a next one is possible. -/
  ends : ∀ as s', (∀ a ∈ as, a ≠ .initAsync) → runActions step s as = some s' →
    as.length ≤ pending s ∧
      (as.length = pending s → ∀ task < s'.requests, task ∈ s'.returned.map Prod.fst) ∧
      (as.length < pending s → ∃ a, a ≠ .initAsync ∧ (step s' a).isSome = true)

/-- No request is answered twice, and only requests are answered. -/
theorem Ok.nodup {s : State ε} (h : Ok s) :
    (s.returned.map Prod.fst).Nodup ∧ ∀ p ∈ s.returned, p.1 < s.requests := by
  have key : ∀ {l : List ℕ}, (s.returned.map Prod.fst ++ l).Perm (List.range s.requests) →
      (s.returned.map Prod.fst).Nodup ∧ ∀ p ∈ s.returned, p.1 < s.requests := by
    intro l hperm
    refine ⟨(hperm.nodup_iff.mpr List.nodup_range).of_append_left, fun p hp => ?_⟩
    have hmem := List.mem_append_left l (List.mem_map_of_mem (f := Prod.fst) hp)
    exact List.mem_range.mp (hperm.mem_iff.mp hmem)
  cases h with
  | notInitialized => exact ⟨List.nodup_nil, List.forall_mem_nil _⟩
  | initializing => exact ⟨List.nodup_nil, List.forall_mem_nil _⟩
  | draining hi hperm => exact key hperm
  | drained hperm => exact key (l := []) (by rwa [List.append_nil])

/-- **Every request is answered exactly once**, in every run: the requests come at any moments, the
worker ends at any time and in any way, and its result is delivered at any time. -/
theorem answersOnce {as : List (Action ε)} {s : State ε}
    (hrun : runActions step State.new as = some s) : AnswersOnce s := by
  have h := ok_of_run hrun
  refine ⟨?_, h.nodup.1, h.nodup.2, ?_, ?_, fun bs s' hbs hrun' => ?_⟩
  · cases h with
    | notInitialized => exact Nat.zero_le 1
    | initializing => exact le_refl 1
    | draining => exact le_refl 1
    | drained => exact le_refl 1
  · intro p hp
    cases h with
    | notInitialized => cases hp
    | initializing => cases hp
    | draining hi hperm hsame => rw [hsame p hp]
    | drained hperm hsame => rw [hsame p hp]
  · intro hdelivered hdraining
    cases h with
    | notInitialized => exact absurd rfl hdelivered
    | initializing => exact absurd rfl hdelivered
    | draining => cases hdraining
    | drained hperm hsame =>
        refine ⟨rfl, rfl, fun task htask => ?_⟩
        exact hperm.mem_iff.mpr (List.mem_range.mpr htask)
  · obtain ⟨h', hlen⟩ := runActions_measure (P := Ok) (fun t a t' ht ha hs => ht.step_of_ne ha hs)
      h hbs hrun'
    refine ⟨by omega, fun hall => ?_, fun hlt => ?_⟩
    · exact h'.answered (by omega)
    · exact h'.exists_step (by omega)

/-- Two requests before the worker fails, one while the queue is drained, and one behind that. -/
def reentrantRun : List (Action GError) :=
  [.initAsync, .initAsync, .taskFn (some ⟨.shardFileCorrupt, "The shard file is corrupt."⟩),
    .ready, .drain, .initAsync, .drain, .drain, .initAsync]

/-- In such a run every request is answered once. -/
theorem answersOnce_reentrantRun :
    ∃ s, runActions step State.new reentrantRun = some s ∧
      s.returned.map Prod.fst = [0, 2, 1, 3] ∧ AnswersOnce s := by
  have hmap : (runActions step State.new reentrantRun).map (fun s => s.returned.map Prod.fst) =
      some [0, 2, 1, 3] := by
    decide
  obtain ⟨s, hrun, hreturned⟩ := Option.map_eq_some_iff.mp hmap
  exact ⟨s, hrun, hreturned, answersOnce hrun⟩

end EosShard.AsyncInit
