import Btps.Trust.JsonTrustStore

/-!
# Interleaved calls

Several `JsonTrustStore` instances over one file, in one process or in several. Each
instance runs its calls on one JavaScript thread. A call runs synchronously up to its first
`await`. What follows an `await` runs in a later tick, once the awaited promise has
settled. Between two ticks of one call, any tick of any other call may run. The events are
these ticks and the disk's answers: a call starts, the disk completes a request that a call
awaits, or a call continues after an `await`. A schedule is a list of events, and every
schedule whose events can happen is a possible run.

Run one call at a time with nothing in between, the model is `Prog.run`
(`System.run_call_alone`), and calls run one after another are `runCalls`
(`System.run_calls_alone`).
-/

namespace Btps

namespace Prog

/-- The synchronous part of a program: it reads and assigns the store's fields until it
awaits, or ends. -/
def settle : Prog α → JsonTrustStore → FileSystem → Prog α × JsonTrustStore
  | .read k, s, fs => (k s fs).settle s fs
  | .write s k, _, fs => k.settle s fs
  | .done r, s, _ => (.done r, s)
  | .io req k, s, _ => (.io req k, s)
  | .pause p, s, _ => (.pause p, s)

/-- What a program returned, once it has ended by returning. -/
def returned : Prog α → Option α
  | .done (.ok a) => some a
  | _ => none

/-- The call has ended, by returning or by throwing. -/
def ended : Prog α → Bool
  | .done _ => true
  | _ => false

end Prog

/-- A call in flight. -/
structure Task where
  /-- The index of the store instance it runs on. -/
  owner : Nat
  /-- What is left of it: it awaits a request or a settled promise, or it has ended. -/
  prog : Prog TrustStoreReply

/-- Store instances over one file, and the calls in flight on them. -/
structure System where
  stores : List JsonTrustStore
  fs : FileSystem
  /-- Every call started so far, in the order they started. -/
  tasks : List Task

/-- What can happen next. -/
inductive Event
  /-- A call starts on a store and runs up to its first `await`. The debounce timer and
  the signal handler start calls too. -/
  | call (owner : Nat) (c : TrustStoreCall)
  /-- The disk completes the request a call awaits. A lock request that meets a held lock
  fails, as `lock` does once its retries are spent; a schedule that waits for the lock
  completes the request later. -/
  | effect (task : Nat)
  /-- A call whose awaited promise has settled runs up to its next `await`. -/
  | resume (task : Nat)
  deriving DecidableEq, Repr

/-- The events of the calls that store `owner` starts from task `start` on. -/
def Event.ownedFrom (owner start : Nat) : Event → Prop
  | .call o _ => o = owner
  | .effect t => start ≤ t
  | .resume t => start ≤ t

/-- An event of the calls from task `start` on is one of those from any earlier task on. -/
theorem Event.ownedFrom.mono {owner start start' : Nat} {e : Event} (hle : start' ≤ start)
    (h : e.ownedFrom owner start) : e.ownedFrom owner start' := by
  cases e with
  | call => exact h
  | effect t => exact Nat.le_trans hle h
  | resume t => exact Nat.le_trans hle h

namespace System

variable (entityName : List Char) (computeTrustId : List Char → List Char → List Char)

/-- One event, when it can happen. -/
def step (sys : System) : Event → Option System
  | .call owner c => sys.stores[owner]?.map fun s =>
    ⟨sys.stores.set owner ((c.prog entityName computeTrustId).settle s sys.fs).2, sys.fs,
      sys.tasks ++ [⟨owner, ((c.prog entityName computeTrustId).settle s sys.fs).1⟩]⟩
  | .effect t => match sys.tasks[t]? with
    | some ⟨owner, .io req k⟩ =>
      some ⟨sys.stores, (req.perform sys.fs).2,
        sys.tasks.set t ⟨owner, .pause (k (req.perform sys.fs).1)⟩⟩
    | _ => none
  | .resume t => match sys.tasks[t]? with
    | some ⟨owner, .pause p⟩ => sys.stores[owner]?.map fun s =>
      ⟨sys.stores.set owner (p.settle s sys.fs).2, sys.fs,
        sys.tasks.set t ⟨owner, (p.settle s sys.fs).1⟩⟩
    | _ => none

/-- The events of a schedule, one after another, as long as each can happen. -/
def run : List Event → System → Option System
  | [], sys => some sys
  | e :: es, sys => (sys.step entityName computeTrustId e).bind (run es)

/-- The systems that some schedule leads to. -/
def Reachable (sys₀ sys : System) : Prop := ∃ es, run entityName computeTrustId es sys₀ = some sys

/-! ### What one event does -/

section Inversion

variable {entityName computeTrustId} {sys sys' : System}

/-- A call that starts settles its program on its store and adds its task. -/
theorem step_call_eq_some {owner : Nat} {c : TrustStoreCall}
    (h : sys.step entityName computeTrustId (.call owner c) = some sys') :
    ∃ s, sys.stores[owner]? = some s ∧
      sys' = ⟨sys.stores.set owner ((c.prog entityName computeTrustId).settle s sys.fs).2,
        sys.fs, sys.tasks ++ [⟨owner, ((c.prog entityName computeTrustId).settle s sys.fs).1⟩]⟩ :=
  let ⟨s, hs, h⟩ := Option.map_eq_some'.mp h
  ⟨s, hs, h.symm⟩

/-- A disk answer performs the request a task awaits and pauses the task on what follows. -/
theorem step_effect_eq_some {t : Nat}
    (h : sys.step entityName computeTrustId (.effect t) = some sys') :
    ∃ (owner : Nat) (β : Type) (req : IoRequest β) (k : Except StoreError β → Prog TrustStoreReply),
      sys.tasks[t]? = some ⟨owner, .io req k⟩ ∧
      sys' = ⟨sys.stores, (req.perform sys.fs).2,
        sys.tasks.set t ⟨owner, .pause (k (req.perform sys.fs).1)⟩⟩ := by
  simp only [step] at h
  split at h
  · rename_i htask
    cases h
    exact ⟨_, _, _, _, htask, rfl⟩
  · cases h

/-- A resumed task settles the rest of its program on its store. -/
theorem step_resume_eq_some {t : Nat}
    (h : sys.step entityName computeTrustId (.resume t) = some sys') :
    ∃ owner p s, sys.tasks[t]? = some ⟨owner, .pause p⟩ ∧ sys.stores[owner]? = some s ∧
      sys' = ⟨sys.stores.set owner (p.settle s sys.fs).2, sys.fs,
        sys.tasks.set t ⟨owner, (p.settle s sys.fs).1⟩⟩ := by
  simp only [step] at h
  split at h
  · rename_i htask
    obtain ⟨s, hs, rfl⟩ := Option.map_eq_some'.mp h
    exact ⟨_, _, s, htask, hs, rfl⟩
  · cases h

/-- What one event keeps, every schedule keeps. -/
theorem run_preserves {P : System → Prop}
    (hstep : ∀ {sys sys' e}, P sys → sys.step entityName computeTrustId e = some sys' → P sys')
    {es : List Event} (h : P sys) (hrun : run entityName computeTrustId es sys = some sys') :
    P sys' := by
  induction es generalizing sys with
  | nil => cases hrun; exact h
  | cons e es ih =>
    obtain ⟨sys₁, h₁, hrest⟩ := Option.bind_eq_some.mp hrun
    exact ih (hstep h h₁) hrest

end Inversion

/-- Events run one list after another. -/
theorem run_append (es es' : List Event) (sys : System) :
    run entityName computeTrustId (es ++ es') sys =
      (run entityName computeTrustId es sys).bind (run entityName computeTrustId es') := by
  induction es generalizing sys with
  | nil => rfl
  | cons e es ih =>
    simp only [List.cons_append, run]
    cases step entityName computeTrustId sys e <;> simp [ih]

/-! ### A call run alone -/

private theorem set_getElem?_self {l : List α} {i : Nat} {a : α} (h : l[i]? = some a) :
    l.set i a = l := by
  obtain ⟨hi, rfl⟩ := List.getElem?_eq_some_iff.mp h
  exact List.ext_getElem (by simp) fun j _ _ => by
    rw [List.getElem_set]
    split <;> simp_all

private theorem lt_length_of_getElem? {l : List α} {i : Nat} {a : α} (h : l[i]? = some a) :
    i < l.length :=
  (List.getElem?_eq_some_iff.mp h).1

/-- A task whose own events are the only ones: from the point where its program `p`,
started on store `s`, first awaits, its events take it to the end that `Prog.run` gives,
and leave the store and the disk as that run does. -/
theorem run_alone (p : Prog TrustStoreReply) (s : JsonTrustStore) (sys : System) (t owner : Nat)
    (htask : sys.tasks[t]? = some ⟨owner, (p.settle s sys.fs).1⟩)
    (hstore : sys.stores[owner]? = some (p.settle s sys.fs).2) :
    ∃ es, (∀ e ∈ es, e = .effect t ∨ e = .resume t) ∧ run entityName computeTrustId es sys =
      some ⟨sys.stores.set owner (p.run ⟨s, sys.fs⟩ []).world.store,
        (p.run ⟨s, sys.fs⟩ []).world.fs, sys.tasks.set t ⟨owner, .done (p.run ⟨s, sys.fs⟩ []).result⟩⟩ := by
  induction p generalizing s sys with
  | done r =>
    simp only [Prog.settle] at htask hstore
    refine ⟨[], by simp, ?_⟩
    simp only [run, Prog.run]
    rw [set_getElem?_self hstore, set_getElem?_self htask]
  | read k ih => exact ih s sys.fs s sys htask hstore
  | write s' k ih => exact ih s' sys htask hstore
  | io req k ih =>
    have ht := lt_length_of_getElem? htask
    have ho := lt_length_of_getElem? hstore
    obtain ⟨es, hes, hrun⟩ := ih (req.perform sys.fs).1 s
      ⟨sys.stores.set owner ((k (req.perform sys.fs).1).settle s (req.perform sys.fs).2).2,
        (req.perform sys.fs).2,
        sys.tasks.set t ⟨owner, ((k (req.perform sys.fs).1).settle s (req.perform sys.fs).2).1⟩⟩
      (by simp [ht]) (by simp [ho])
    refine ⟨.effect t :: .resume t :: es, ?_, ?_⟩
    · simpa using hes
    · simp only [Prog.settle] at htask hstore
      simp [run, step, htask, hstore, ht, hrun, List.set_set, Prog.run, IoRequest.respond]
  | pause q ih =>
    have ht := lt_length_of_getElem? htask
    have ho := lt_length_of_getElem? hstore
    obtain ⟨es, hes, hrun⟩ := ih s ⟨sys.stores.set owner (q.settle s sys.fs).2, sys.fs,
        sys.tasks.set t ⟨owner, (q.settle s sys.fs).1⟩⟩ (by simp [ht]) (by simp [ho])
    refine ⟨.resume t :: es, ?_, ?_⟩
    · simpa using hes
    · simp only [Prog.settle] at htask hstore
      simp [run, step, htask, hstore, hrun, List.set_set]

/-- A call started on a store and run with no other event in between does what the call
does run alone: the new task ends with the result of `Prog.run`, and the store and the
disk are left as that run leaves them. -/
theorem run_call_alone (sys : System) {owner : Nat} {s : JsonTrustStore}
    (hstore : sys.stores[owner]? = some s) (c : TrustStoreCall) :
    ∃ es, (∀ e ∈ es, e = .effect sys.tasks.length ∨ e = .resume sys.tasks.length) ∧
      run entityName computeTrustId (.call owner c :: es) sys = some
        ⟨sys.stores.set owner ((c.prog entityName computeTrustId).run ⟨s, sys.fs⟩ []).world.store,
          ((c.prog entityName computeTrustId).run ⟨s, sys.fs⟩ []).world.fs,
          sys.tasks ++ [⟨owner, .done ((c.prog entityName computeTrustId).run ⟨s, sys.fs⟩ []).result⟩]⟩ := by
  have ho := lt_length_of_getElem? hstore
  obtain ⟨es, hes, hrun⟩ := run_alone entityName computeTrustId (c.prog entityName computeTrustId) s
    ⟨sys.stores.set owner ((c.prog entityName computeTrustId).settle s sys.fs).2, sys.fs,
      sys.tasks ++ [⟨owner, ((c.prog entityName computeTrustId).settle s sys.fs).1⟩]⟩
    sys.tasks.length owner (by simp) (by simp [ho])
  exact ⟨es, hes, by simpa [run, step, hstore, List.set_set] using hrun⟩

/-- Calls started on one store one after another, each run alone to its end, give the
results and leave the store and the disk as `runCalls` does. -/
theorem run_calls_alone (cs : List TrustStoreCall) (sys : System) {owner : Nat}
    {s : JsonTrustStore} (hstore : sys.stores[owner]? = some s) :
    ∃ es, (∀ e ∈ es, e.ownedFrom owner sys.tasks.length) ∧
      run entityName computeTrustId es sys = some
        ⟨sys.stores.set owner (runCalls entityName computeTrustId cs ⟨s, sys.fs⟩ []).2.store,
          (runCalls entityName computeTrustId cs ⟨s, sys.fs⟩ []).2.fs,
          sys.tasks ++ (runCalls entityName computeTrustId cs ⟨s, sys.fs⟩ []).1.map
            fun r => ⟨owner, .done r⟩⟩ := by
  induction cs generalizing sys s with
  | nil => exact ⟨[], by simp, by simp [run, runCalls, set_getElem?_self hstore]⟩
  | cons c cs ih =>
    have ho := lt_length_of_getElem? hstore
    obtain ⟨es₁, hes₁, hrun₁⟩ := run_call_alone entityName computeTrustId sys hstore c
    obtain ⟨es₂, hes₂, hrun₂⟩ := ih
      ⟨sys.stores.set owner ((c.prog entityName computeTrustId).run ⟨s, sys.fs⟩ []).world.store,
        ((c.prog entityName computeTrustId).run ⟨s, sys.fs⟩ []).world.fs,
        sys.tasks ++ [⟨owner, .done ((c.prog entityName computeTrustId).run ⟨s, sys.fs⟩ []).result⟩]⟩
      (s := ((c.prog entityName computeTrustId).run ⟨s, sys.fs⟩ []).world.store) (by simp [ho])
    refine ⟨(.call owner c :: es₁) ++ es₂, ?_, ?_⟩
    · intro e he
      simp only [List.cons_append, List.mem_cons, List.mem_append] at he
      rcases he with rfl | he | he
      · rfl
      · rcases hes₁ e he with rfl | rfl <;> exact le_refl _
      · exact (hes₂ e he).mono (by simp)
    · rw [run_append, hrun₁]
      simpa [runCalls, List.set_set] using hrun₂

end System

end Btps
