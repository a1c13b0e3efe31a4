import Btps.Trust.FileSystem

/-!
# Store programs

Every method of `JsonTrustStore` is an `async` function. It runs synchronously until an
`await`, and the rest runs only after the awaited promise settles, while other calls may
run in between. `Prog` writes such a function as data. A program reads the store's
fields and, through `existsSync`, the disk; it assigns the store's fields; it awaits a
request to the disk; or it awaits a promise that has already settled. `Prog.run` runs
one program alone, with every request taking effect at once. The concurrency modules
interleave the steps of several programs.
-/

namespace Btps

/-- How a store call throws. -/
inductive StoreError
  /-- An `Error` that the store throws, with its message. -/
  | error (message : List Char)
  /-- `ELOCKED`: the lock of the file stayed held through every retry. -/
  | lockFailed
  /-- A disk request that failed. -/
  | ioFailure
  /-- `ENOENT`: a read, stat or rename of a missing file. -/
  | notFound
  /-- `JSON.parse` rejected the file. -/
  | syntaxError
  /-- `for...of` over a value that is not iterable. -/
  | notIterable
  deriving DecidableEq, Repr

/-- The fields of a `JsonTrustStore` that change, and the timer of its debounced write. -/
structure JsonTrustStore where
  recordMap : RecordMap
  dirty : Bool
  lastChangedMtime : Nat
  /-- `writeDebounced` was called and its write has not started yet. -/
  writePending : Bool
  deriving DecidableEq

/-- The store as the constructor leaves it: `new Map()`, clean, `lastChangedMtime = 0`. -/
def JsonTrustStore.fresh : JsonTrustStore := ⟨RecordMap.empty, false, 0, false⟩

/-- One store and the disk it persists to. -/
structure World where
  store : JsonTrustStore
  fs : FileSystem
  deriving DecidableEq

/-- A request to the disk, indexed by what it returns. -/
inductive IoRequest : Type → Type
  /-- `fs.writeFile(filePath, ...)`. -/
  | writeFile (contents : TrustFile) : IoRequest Unit
  /-- `fs.readFile(filePath)`. -/
  | readFile : IoRequest TrustFile
  /-- `fs.stat(filePath)`, which gives the modification time. -/
  | stat : IoRequest Nat
  /-- `lock(filePath, ...)`. -/
  | lock : IoRequest Unit
  /-- The `release` function that `lock` returned. -/
  | release : IoRequest Unit
  /-- `fs.writeFile(tmpPath, ...)`. -/
  | writeTmp (contents : TrustFile) : IoRequest Unit
  /-- `fs.rename(tmpPath, filePath)`. -/
  | rename : IoRequest Unit

namespace IoRequest

/-- What a request does to the disk, and what the awaiting task receives. -/
def perform : IoRequest β → FileSystem → Except StoreError β × FileSystem
  | .writeFile contents, fs => (.ok (), fs.writeFile contents)
  | .readFile, fs => (match fs.file with | some f => .ok f.contents | none => .error .notFound, fs)
  | .stat, fs => (match fs.file with | some f => .ok f.mtime | none => .error .notFound, fs)
  | .lock, fs => if fs.locked then (.error .lockFailed, fs) else (.ok (), { fs with locked := true })
  | .release, fs => (.ok (), { fs with locked := false })
  | .writeTmp contents, fs => (.ok (), fs.writeTmp contents)
  | .rename, fs => match fs.tmp with
    | some tmp => (.ok (), fs.rename tmp)
    | none => (.error .notFound, fs)

/-- The error of a request that the disk refuses. -/
def failure : IoRequest β → StoreError
  | .lock => .lockFailed
  | _ => .ioFailure

/-- A request that succeeds or, when `fault` holds, fails and leaves the disk as it was. -/
def respond (req : IoRequest β) (fault : Bool) (fs : FileSystem) : Except StoreError β × FileSystem :=
  if fault then (.error req.failure, fs) else req.perform fs

/-- The contents a request writes, to the file or to the `.tmp` file. -/
def written : IoRequest β → Option TrustFile
  | .writeFile contents => some contents
  | .writeTmp contents => some contents
  | _ => none

/-- Whether the request moves the `.tmp` file over the file. -/
def renames : IoRequest β → Bool
  | .rename => true
  | _ => false

/-- After a request, the file is the file before, the `.tmp` file before when the request
is the rename, or what the request wrote. -/
theorem mem_respond_file {req : IoRequest β} {fault : Bool} {fs : FileSystem}
    {f : StoredFile} (h : f ∈ (req.respond fault fs).2.file) :
    f ∈ fs.file ∨ (req.renames ∧ f ∈ fs.tmp) ∨ f.contents ∈ req.written := by
  unfold respond at h
  split at h
  · exact Or.inl h
  cases req with
  | writeFile c =>
    cases Option.some.inj h
    exact Or.inr (Or.inr rfl)
  | lock => simp only [perform] at h; split at h <;> exact Or.inl h
  | rename =>
    simp only [perform] at h
    split at h
    · rename_i tmp htmp
      cases Option.some.inj h
      exact Or.inr (Or.inl ⟨rfl, htmp⟩)
    · exact Or.inl h
  | _ => exact Or.inl h

/-- A `.tmp` write that succeeded left what it wrote. -/
theorem respond_writeTmp {contents : TrustFile} {fault : Bool} {fs : FileSystem}
    (h : ((writeTmp contents).respond fault fs).1 = .ok ()) :
    ((writeTmp contents).respond fault fs).2.tmp = some ⟨contents, fs.clock⟩ := by
  cases fault
  · rfl
  · cases h

/-- A read that succeeded returned the contents of the file. -/
theorem respond_readFile {fault : Bool} {fs : FileSystem} {raw : TrustFile}
    (h : (readFile.respond fault fs).1 = .ok raw) : ∃ f ∈ fs.file, raw = f.contents := by
  cases fault <;> cases hf : fs.file <;> simp_all [respond, perform]

end IoRequest

/-- An `async` function of the store, as data. -/
inductive Prog (α : Type) : Type 1
  /-- The function has returned or thrown. -/
  | done (result : Except StoreError α)
  /-- Read the store's fields and, with `existsSync`, the disk. -/
  | read (k : JsonTrustStore → FileSystem → Prog α)
  /-- Assign the store's fields. -/
  | write (store : JsonTrustStore) (k : Prog α)
  /-- `await` a request to the disk. -/
  | io {β : Type} (req : IoRequest β) (k : Except StoreError β → Prog α)
  /-- `await` a promise that has settled: the rest runs in a later tick. -/
  | pause (next : Prog α)

namespace Prog

/-- Continue with the outcome of a program, whether it returned or threw. -/
def andThen : Prog α → (Except StoreError α → Prog β) → Prog β
  | .done r, f => f r
  | .read k, f => .read fun s fs => (k s fs).andThen f
  | .write s k, f => .write s (k.andThen f)
  | .io req k, f => .io req fun r => (k r).andThen f
  | .pause p, f => .pause (p.andThen f)

/-- Sequencing: a throw skips the rest. -/
def bind (p : Prog α) (f : α → Prog β) : Prog β :=
  p.andThen fun
    | .ok a => f a
    | .error e => .done (.error e)

/-- The store's programs compose as `async` code does: `await` binds, a throw skips the rest. -/
instance : Monad Prog where
  pure a := .done (.ok a)
  bind := bind

/-- `throw`. -/
def throw (e : StoreError) : Prog α := .done (.error e)

/-- Read the store's fields. -/
def getStore : Prog JsonTrustStore := .read fun s _ => .done (.ok s)

/-- Assign the store's fields from their current values. -/
def modifyStore (f : JsonTrustStore → JsonTrustStore) : Prog Unit :=
  .read fun s _ => .write (f s) (.done (.ok ()))

/-- `existsSync(filePath)`. -/
def existsSync : Prog Bool := .read fun _ fs => .done (.ok fs.file.isSome)

/-- `await` a request to the disk. -/
def request (req : IoRequest β) : Prog β := .io req .done

/-- `await` an `async` method of the store: its outcome reaches the caller a tick later. -/
def await (p : Prog α) : Prog α := p.andThen fun r => .pause (.done r)

/-- `try { p } finally { fin }`: a throw of the finaliser replaces the outcome of `p`. -/
def tryFinally (p : Prog α) (fin : Prog Unit) : Prog α :=
  p.andThen fun r => fin.bind fun _ => .done r

/-! ### Running a program alone -/

/-- The end of a program run alone: its result, the world, and the faults not used. -/
structure Outcome (α : Type) where
  result : Except StoreError α
  world : World
  faults : List Bool

/-- Runs a program with no other task. Every request takes effect when it is issued;
`faults` says, request by request, which the disk refuses. -/
def run : Prog α → World → List Bool → Outcome α
  | .done r, w, faults => ⟨r, w, faults⟩
  | .read k, w, faults => (k w.store w.fs).run w faults
  | .write s k, w, faults => k.run { w with store := s } faults
  | .io req k, w, faults =>
    (k (req.respond (faults.headD false) w.fs).1).run
      { w with fs := (req.respond (faults.headD false) w.fs).2 } faults.tail
  | .pause p, w, faults => p.run w faults

/-- Running `p.andThen f` runs `p` and then `f` on its outcome, from where `p` left the world. -/
theorem run_andThen (p : Prog α) (f : Except StoreError α → Prog β) (w : World)
    (faults : List Bool) :
    (p.andThen f).run w faults = (f (p.run w faults).result).run (p.run w faults).world
      (p.run w faults).faults := by
  induction p generalizing w faults with
  | done r => rfl
  | read k ih => exact ih _ _ w faults
  | write s k ih => exact ih _ faults
  | io req k ih => exact ih _ _ faults.tail
  | pause p ih => exact ih w faults

/-- Running a bind runs the first program and, when it returns, the rest on its value. -/
theorem run_bind (p : Prog α) (f : α → Prog β) (w : World) (faults : List Bool) :
    (p.bind f).run w faults =
      match (p.run w faults).result with
      | .ok a => (f a).run (p.run w faults).world (p.run w faults).faults
      | .error e => ⟨.error e, (p.run w faults).world, (p.run w faults).faults⟩ := by
  rw [bind, run_andThen]
  split <;> rfl

/-- `>>=` is `Prog.bind`. -/
@[simp] theorem bind_eq (p : Prog α) (f : α → Prog β) : p >>= f = p.bind f := rfl

/-- `pure` returns at once. -/
@[simp] theorem pure_eq (a : α) : (pure a : Prog α) = .done (.ok a) := rfl

/-- A finished program leaves the world as it is. -/
@[simp] theorem run_done (r : Except StoreError α) (w : World) (faults : List Bool) :
    (Prog.done r).run w faults = ⟨r, w, faults⟩ := rfl

/-- A pause costs the sequential run nothing. -/
@[simp] theorem run_pause (p : Prog α) (w : World) (faults : List Bool) :
    (Prog.pause p).run w faults = p.run w faults := rfl

/-- A throw leaves the world as it is. -/
@[simp] theorem run_throw (e : StoreError) (w : World) (faults : List Bool) :
    (throw e : Prog α).run w faults = ⟨.error e, w, faults⟩ := rfl

/-- Reading the store's fields returns them. -/
@[simp] theorem run_getStore (w : World) (faults : List Bool) :
    getStore.run w faults = ⟨.ok w.store, w, faults⟩ := rfl

/-- Writing the store's fields changes them only. -/
@[simp] theorem run_modifyStore (f : JsonTrustStore → JsonTrustStore) (w : World)
    (faults : List Bool) :
    (modifyStore f).run w faults = ⟨.ok (), { w with store := f w.store }, faults⟩ := rfl

/-- `existsSync` tells whether the file is there. -/
@[simp] theorem run_existsSync (w : World) (faults : List Bool) :
    existsSync.run w faults = ⟨.ok w.fs.file.isSome, w, faults⟩ := rfl

/-- A request takes the next fault flag and answers it on the disk. -/
@[simp] theorem run_request (req : IoRequest β) (w : World) (faults : List Bool) :
    (request req).run w faults =
      ⟨(req.respond (faults.headD false) w.fs).1,
        { w with fs := (req.respond (faults.headD false) w.fs).2 }, faults.tail⟩ := rfl

/-- An `await` costs the sequential run nothing. -/
@[simp] theorem run_await (p : Prog α) (w : World) (faults : List Bool) :
    (await p).run w faults = p.run w faults := by
  rw [await, run_andThen]
  rfl

/-- Mapping a program's value changes only its result. -/
@[simp] theorem run_map (f : α → β) (p : Prog α) (w : World) (faults : List Bool) :
    (f <$> p).run w faults =
      ⟨(p.run w faults).result.map f, (p.run w faults).world, (p.run w faults).faults⟩ := by
  show (p.bind fun a => .done (.ok (f a))).run w faults = _
  rw [run_bind]
  split <;> simp_all [Except.map]

/-- With no faults to use, a run uses none. -/
@[simp] theorem run_faults_nil (p : Prog α) (w : World) : (p.run w []).faults = [] := by
  induction p generalizing w with
  | done r => rfl
  | read k ih => exact ih _ _ w
  | write s k ih => exact ih _
  | io req k ih => exact ih _ _
  | pause p ih => exact ih w

/-- `try`/`finally` runs the cleanup after the body and keeps the body's outcome unless the
cleanup throws. -/
theorem run_tryFinally (p : Prog α) (fin : Prog Unit) (w : World) (faults : List Bool) :
    (tryFinally p fin).run w faults =
      let o := p.run w faults
      let o' := fin.run o.world o.faults
      ⟨match o'.result with
        | .ok _ => o.result
        | .error e => .error e, o'.world, o'.faults⟩ := by
  rw [tryFinally, run_andThen, run_bind]
  split <;> simp_all

/-! ### Invariants of programs run alone -/

/-- Run alone from a world with `I` and `P`, under any faults, the program ends in a world
with `I`, whether it returns or throws; when it returns `a`, that world has `Q a`. -/
def Triple (I P : World → Prop) (p : Prog α) (Q : α → World → Prop) : Prop :=
  ∀ w faults, I w → P w →
    I (p.run w faults).world ∧ ∀ a, (p.run w faults).result = .ok a → Q a (p.run w faults).world

section Triple

variable {I P : World → Prop}

/-- A program followed by a continuation on its outcome keeps the invariant when both do. -/
theorem Triple.andThen {p : Prog α} {f : Except StoreError α → Prog β} {Q : α → World → Prop}
    {R : β → World → Prop} (hp : Triple I P p Q) (hok : ∀ a, Triple I (Q a) (f (.ok a)) R)
    (herr : ∀ e, Triple I (fun _ => True) (f (.error e)) R) : Triple I P (p.andThen f) R := by
  intro w faults hw hP
  rw [run_andThen]
  obtain ⟨hw', hq⟩ := hp w faults hw hP
  cases hr : (p.run w faults).result with
  | ok a => exact hok a _ _ hw' (hq a hr)
  | error e => exact herr e _ _ hw' trivial

/-- A bind keeps the invariant when both programs do. -/
theorem Triple.bind {p : Prog α} {f : α → Prog β} {Q : α → World → Prop} {R : β → World → Prop}
    (hp : Triple I P p Q) (hf : ∀ a, Triple I (Q a) (f a) R) : Triple I P (p.bind f) R :=
  hp.andThen hf fun _ _ _ hw _ => ⟨hw, fun _ h => nomatch h⟩

/-- A program that returns at once meets a postcondition that holds on the world. -/
theorem triple_pure {a : α} {Q : α → World → Prop} (h : ∀ w, I w → P w → Q a w) :
    Triple I P (Prog.done (.ok a)) Q :=
  fun w _ hw hP => ⟨hw, fun _ ha => by cases ha; exact h w hw hP⟩

/-- A throw meets every postcondition. -/
theorem triple_throw (e : StoreError) (Q : α → World → Prop) : Triple I P (throw e) Q :=
  fun _ _ hw _ => ⟨hw, fun _ h => nomatch h⟩

/-- A precondition that does not depend on the world is a hypothesis. -/
theorem Triple.of_pre {c : Prop} {p : Prog α} {Q : α → World → Prop}
    (h : c → Triple I (fun _ => True) p Q) : Triple I (fun _ => c) p Q :=
  fun w faults hw hc => h hc w faults hw trivial

/-- A branch keeps the invariant when both arms do. -/
theorem triple_ite {c : Prop} [Decidable c] {p q : Prog α} {Q : α → World → Prop}
    (hp : Triple I P p Q) (hq : Triple I P q Q) : Triple I P (if c then p else q) Q := by
  split
  exacts [hp, hq]

/-- Mapping a program's value keeps the invariant. -/
theorem Triple.map {p : Prog α} {Q : α → World → Prop} (hp : Triple I P p Q) (f : α → β) :
    Triple I P (f <$> p) fun _ _ => True :=
  hp.bind fun _ => triple_pure fun _ _ _ => trivial

/-- An `await` keeps what its program keeps. -/
theorem Triple.await {p : Prog α} {Q : α → World → Prop} (hp : Triple I P p Q) :
    Triple I P (await p) Q := by
  intro w faults hw hP
  rw [run_await]
  exact hp w faults hw hP

/-- The finaliser runs after a return, which it must not spoil, and after a throw. -/
theorem Triple.tryFinally {p : Prog α} {fin : Prog Unit} {Q : α → World → Prop}
    (hp : Triple I P p Q) (hfin : ∀ a, Triple I (Q a) fin fun _ => Q a)
    (herr : Triple I (fun _ => True) fin fun _ _ => True) : Triple I P (tryFinally p fin) Q :=
  hp.andThen (fun a => (hfin a).bind fun _ => triple_pure fun _ _ h => h)
    fun e => herr.bind fun _ => triple_throw e Q

/-- Reading the store's fields returns the store of the world. -/
theorem triple_getStore : Triple I P getStore fun s w => P w ∧ w.store = s :=
  fun w _ hw hP => ⟨hw, fun _ h => by cases h; exact ⟨hP, rfl⟩⟩

/-- `existsSync` returns whether the file is there. -/
theorem triple_existsSync : Triple I P existsSync fun b w => P w ∧ b = w.fs.file.isSome :=
  fun w _ hw hP => ⟨hw, fun _ h => by cases h; exact ⟨hP, rfl⟩⟩

/-- Writing the store's fields keeps the invariant when the new world does. -/
theorem triple_modifyStore {f : JsonTrustStore → JsonTrustStore} {Q : Unit → World → Prop}
    (h : ∀ w, I w → P w → I { w with store := f w.store } ∧ Q () { w with store := f w.store }) :
    Triple I P (modifyStore f) Q :=
  fun w _ hw hP => ⟨(h w hw hP).1, fun _ ha => by cases ha; exact (h w hw hP).2⟩

/-- A request keeps the invariant when every answer of the disk does. -/
theorem triple_request {req : IoRequest β} {Q : β → World → Prop}
    (h : ∀ w fault, I w → P w → I { w with fs := (req.respond fault w.fs).2 } ∧
      ∀ a, (req.respond fault w.fs).1 = .ok a → Q a { w with fs := (req.respond fault w.fs).2 }) :
    Triple I P (request req) Q :=
  fun w _ hw hP => h w _ hw hP

end Triple

end Prog

end Btps
