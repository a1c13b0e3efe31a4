import Btps.Trust.Interleaving

/-!
# How a call uses the disk

Every call of the store makes its disk requests in one discipline. It writes, to the file
or to the `.tmp` file, only a record collection under the entity name, which `init` can
read back. It asks for the lock only when it does not hold it. It writes the `.tmp` file,
renames it and releases the lock only while it holds it, and it has released the lock by
the time it returns or throws. `Prog.Disciplined` says this of what is left of a call,
from a point where it holds the lock or not. Every call's program satisfies it from the
start, and what is left after it first awaits still does.
-/

namespace Btps

/-- `init` can read the contents: they parse, and hold an iterable value under the entity
name. -/
def TrustFile.Loads (entityName : List Char) (contents : TrustFile) : Prop :=
  (contents.select entityName).isSome

/-- `init` can read every file the store writes. -/
theorem TrustFile.loads_ofRecords (entityName : List Char) (records : List BTPTrustRecord) :
    (TrustFile.ofRecords entityName records).Loads entityName := by
  simp [TrustFile.Loads]

namespace IoRequest

/-- A request as the store makes it, by a call that holds the lock when `held` is true:
what it writes `init` can read, `lock` comes only from a call that does not hold the lock,
and the `.tmp` write, the rename and the release only from the call that holds it. -/
def Allowed (entityName : List Char) : IoRequest β → Bool → Prop
  | .writeFile contents, _ => contents.Loads entityName
  | .readFile, _ => True
  | .stat, _ => True
  | .lock, held => held = false
  | .release, held => held = true
  | .writeTmp contents, held => contents.Loads entityName ∧ held = true
  | .rename, held => held = true

/-- Whether the call holds the lock once the request has answered: a `lock` that succeeds
gives it, `release` gives it back, and the other requests leave it. -/
def holdsAfter : IoRequest β → Bool → Except StoreError β → Bool
  | .writeFile _, held, _ => held
  | .readFile, held, _ => held
  | .stat, held, _ => held
  | .lock, _, r => r.toBool
  | .release, _, _ => false
  | .writeTmp _, held, _ => held
  | .rename, held, _ => held

/-- The requests that only the holder of the lock makes. -/
def needsLock : IoRequest β → Bool
  | .writeFile _ => false
  | .readFile => false
  | .stat => false
  | .lock => false
  | .release => true
  | .writeTmp _ => true
  | .rename => true

/-- The requests that take or give back the lock. -/
def movesLock : IoRequest β → Bool
  | .writeFile _ => false
  | .readFile => false
  | .stat => false
  | .lock => true
  | .release => true
  | .writeTmp _ => false
  | .rename => false

/-- A request that neither takes nor gives back the lock leaves the call holding it as before. -/
theorem holdsAfter_of_movesLock {req : IoRequest β} (h : req.movesLock = false) (held : Bool)
    (r : Except StoreError β) : req.holdsAfter held r = held := by
  cases req <;> simp_all [movesLock, holdsAfter]

variable {entityName : List Char} {held : Bool}

/-- `writeToFile`'s `.tmp` write, made while it holds the lock. -/
theorem allowed_writeTmp (records : List BTPTrustRecord) :
    (writeTmp (.ofRecords entityName records)).Allowed entityName true :=
  And.intro (TrustFile.loads_ofRecords entityName records) rfl

/-- `init`'s write of a missing file. -/
theorem allowed_writeFile (records : List BTPTrustRecord) :
    (writeFile (.ofRecords entityName records)).Allowed entityName held :=
  TrustFile.loads_ofRecords entityName records

/-- Every file an allowed request writes is one `init` can read. -/
theorem Allowed.written {req : IoRequest β} (h : req.Allowed entityName held) :
    ∀ c ∈ req.written, c.Loads entityName := by
  cases req with
  | writeFile c => exact fun _ hc => by cases hc; exact h
  | writeTmp c => exact fun _ hc => by cases hc; exact h.1
  | _ => exact nofun

/-- An allowed request that only the lock's holder makes is made while the call holds the lock. -/
theorem Allowed.held_of_needsLock {req : IoRequest β} (h : req.Allowed entityName held)
    (hneeds : req.needsLock = true) : held = true := by
  cases req <;> simp_all [Allowed, needsLock]

end IoRequest

namespace Prog

/-- From a point where the call holds the lock when `held` is true, it makes every request
as `IoRequest.Allowed` says, and it holds the lock at its end as `post` says of its
result. -/
def Disciplined (entityName : List Char) (post : Except StoreError α → Bool) :
    Bool → Prog α → Prop
  | held, .done r => held = post r
  | held, .read k => ∀ s fs, (k s fs).Disciplined entityName post held
  | held, .write _ k => k.Disciplined entityName post held
  | held, .io req k =>
    req.Allowed entityName held ∧ ∀ r, (k r).Disciplined entityName post (req.holdsAfter held r)
  | held, .pause p => p.Disciplined entityName post held

section Disciplined

variable {entityName : List Char} {held : Bool}

/-- A program followed by a continuation on its outcome keeps the discipline when both do. -/
theorem Disciplined.andThen {p : Prog α} {f : Except StoreError α → Prog β}
    {postp : Except StoreError α → Bool} {post : Except StoreError β → Bool}
    (hp : p.Disciplined entityName postp held)
    (hf : ∀ r, (f r).Disciplined entityName post (postp r)) :
    (p.andThen f).Disciplined entityName post held := by
  induction p generalizing held with
  | done r => cases hp; exact hf r
  | read k ih => exact fun s fs => ih s fs (hp s fs)
  | write s k ih => exact ih hp
  | io req k ih => exact ⟨hp.1, fun r => ih r (hp.2 r)⟩
  | pause p ih => exact ih hp

/-- A throw skips the rest, so it must end the first part holding the lock as the whole
ends on that throw. -/
theorem Disciplined.bind {p : Prog α} {f : α → Prog β} {postp : Except StoreError α → Bool}
    {post : Except StoreError β → Bool} (hp : p.Disciplined entityName postp held)
    (hf : ∀ a, (f a).Disciplined entityName post (postp (.ok a)))
    (herr : ∀ e, postp (.error e) = post (.error e)) :
    (p.bind f).Disciplined entityName post held :=
  hp.andThen fun
    | .ok a => hf a
    | .error e => herr e

/-- Sequencing where the lock is held the same way at the end whatever the result. -/
theorem Disciplined.seq {p : Prog α} {f : α → Prog β} {held' : Bool}
    (hp : p.Disciplined entityName (fun _ => held') held)
    (hf : ∀ a, (f a).Disciplined entityName (fun _ => held') held') :
    (p.bind f).Disciplined entityName (fun _ => held') held :=
  hp.bind hf fun _ => rfl

/-- An `await` keeps its program's discipline. -/
theorem Disciplined.await {p : Prog α} {post : Except StoreError α → Bool}
    (hp : p.Disciplined entityName post held) : (await p).Disciplined entityName post held :=
  hp.andThen fun _ => rfl

/-- `try`/`finally` keeps the discipline when the body and the cleanup do, the cleanup starting
as the body ends. -/
theorem Disciplined.tryFinally {p : Prog α} {fin : Prog Unit} {held' held'' : Bool}
    (hp : p.Disciplined entityName (fun _ => held') held)
    (hfin : fin.Disciplined entityName (fun _ => held'') held') :
    (tryFinally p fin).Disciplined entityName (fun _ => held'') held :=
  hp.andThen fun _ => hfin.bind (fun _ => rfl) fun _ => rfl

/-- Mapping a program's value keeps its discipline. -/
theorem Disciplined.map {p : Prog α} {held' : Bool}
    (hp : p.Disciplined entityName (fun _ => held') held) (f : α → β) :
    (f <$> p).Disciplined entityName (fun _ => held') held :=
  hp.seq fun _ => rfl

/-- Reading the store's fields leaves the lock. -/
theorem disciplined_getStore : getStore.Disciplined entityName (fun _ => held) held :=
  fun _ _ => rfl

/-- Writing the store's fields leaves the lock. -/
theorem disciplined_modifyStore {f : JsonTrustStore → JsonTrustStore} :
    (modifyStore f).Disciplined entityName (fun _ => held) held :=
  fun _ _ => rfl

/-- `existsSync` leaves the lock. -/
theorem disciplined_existsSync : existsSync.Disciplined entityName (fun _ => held) held :=
  fun _ _ => rfl

/-- A finished program leaves the lock. -/
theorem disciplined_done {r : Except StoreError α} :
    (Prog.done r).Disciplined entityName (fun _ => held) held :=
  rfl

/-- An allowed request holds the lock after it as its answer says. -/
theorem disciplined_request (req : IoRequest β) (h : req.Allowed entityName held) :
    (request req).Disciplined entityName (req.holdsAfter held) held :=
  ⟨h, fun _ => rfl⟩

/-- A branch keeps the discipline when both arms do. -/
theorem disciplined_ite {c : Prop} [Decidable c] {p q : Prog α}
    {post : Except StoreError α → Bool} (hp : p.Disciplined entityName post held)
    (hq : q.Disciplined entityName post held) :
    (if c then p else q).Disciplined entityName post held := by
  split
  exacts [hp, hq]

/-- What is left of a call once it awaits keeps the discipline. -/
theorem Disciplined.settle {p : Prog α} {post : Except StoreError α → Bool}
    (hp : p.Disciplined entityName post held) (s : JsonTrustStore) (fs : FileSystem) :
    (p.settle s fs).1.Disciplined entityName post held := by
  induction p generalizing s with
  | done r => exact hp
  | read k ih => exact ih s fs (hp s fs) s
  | write s' k ih => exact ih hp s'
  | io req k ih => exact hp
  | pause p ih => exact hp

end Disciplined

end Prog

/-! ### Every call keeps the discipline -/

section Methods

variable (entityName : List Char)

open Prog

/-- `writeToFile` takes the lock, writes and renames the `.tmp` file while it holds it,
and releases it whether the write succeeds or throws. -/
theorem writeToFile_disciplined :
    (writeToFile entityName).Disciplined entityName (fun _ => false) false := by
  unfold writeToFile
  simp only [bind_eq, pure_eq]
  refine disciplined_getStore.seq fun _ => disciplined_ite disciplined_done ?_
  refine disciplined_modifyStore.seq fun _ => (disciplined_request .lock rfl).bind
    (fun _ => Disciplined.tryFinally ?_ (disciplined_request .release rfl)) fun _ => rfl
  exact disciplined_getStore.seq fun _ =>
    (disciplined_request _ (IoRequest.allowed_writeTmp _)).seq fun _ =>
      (disciplined_request .rename rfl).seq fun _ =>
        (disciplined_request .stat trivial).seq fun _ => disciplined_modifyStore

/-- `init` makes every request as `Allowed` says, writing only a file it can read, and never
takes the lock. -/
theorem init_disciplined :
    (init entityName).Disciplined entityName (fun _ => false) false := by
  unfold init
  simp only [bind_eq, pure_eq]
  refine disciplined_existsSync.seq fun _ =>
    (disciplined_ite (disciplined_request _ (IoRequest.allowed_writeFile [])) disciplined_done).seq
      fun _ => (disciplined_request .readFile trivial).seq fun raw => ?_
  refine (disciplined_ite disciplined_done disciplined_done).seq fun _ =>
    disciplined_modifyStore.seq fun _ => ?_
  split
  exacts [disciplined_modifyStore, disciplined_done]

/-- `flushAndReload` makes every request as `Allowed` says and ends without the lock. -/
theorem flushAndReload_disciplined :
    (flushAndReload entityName).Disciplined entityName (fun _ => false) false := by
  unfold flushAndReload
  simp only [bind_eq]
  exact (writeToFile_disciplined entityName).await.seq fun _ =>
    disciplined_modifyStore.seq fun _ => (init_disciplined entityName).await

/-- `reloadIfChanged` makes every request as `Allowed` says and ends without the lock. -/
theorem reloadIfChanged_disciplined :
    (reloadIfChanged entityName).Disciplined entityName (fun _ => false) false := by
  unfold reloadIfChanged
  simp only [bind_eq, pure_eq]
  exact (disciplined_request .stat trivial).seq fun _ => disciplined_getStore.seq fun _ =>
    disciplined_ite ((flushAndReload_disciplined entityName).await.seq
      fun _ => disciplined_modifyStore) disciplined_done

/-- `if (this.recordMap.size === 0) await this.init()`. -/
theorem loadIfEmpty_disciplined :
    (getStore.bind fun s => (if s.recordMap.size = 0 then await (init entityName)
      else .done (.ok ()) : Prog Unit)).Disciplined entityName (fun _ => false) false :=
  disciplined_getStore.seq fun _ =>
    disciplined_ite (init_disciplined entityName).await disciplined_done

/-- `getById` makes every request as `Allowed` says and ends without the lock. -/
theorem getById_disciplined (computedId : List Char) :
    (getById entityName computedId).Disciplined entityName (fun _ => false) false := by
  unfold getById
  simp only [bind_eq, pure_eq]
  exact (loadIfEmpty_disciplined entityName).seq fun _ =>
    (reloadIfChanged_disciplined entityName).await.seq fun _ =>
      disciplined_getStore.seq fun _ => disciplined_done

/-- `create` makes every request as `Allowed` says and ends without the lock. -/
theorem create_disciplined (computeTrustId : List Char → List Char → List Char)
    (record : TrustRecordInput) (computedId : Option (List Char)) :
    (create entityName computeTrustId record computedId).Disciplined entityName
      (fun _ => false) false := by
  unfold create
  simp only [bind_eq, pure_eq]
  exact (disciplined_ite disciplined_done disciplined_done).seq fun _ =>
    (getById_disciplined entityName _).await.seq fun _ =>
      (disciplined_ite disciplined_done disciplined_done).seq fun _ =>
        disciplined_modifyStore.seq fun _ => disciplined_modifyStore.seq fun _ =>
          disciplined_modifyStore.seq fun _ => disciplined_done

/-- `update` makes every request as `Allowed` says and ends without the lock. -/
theorem update_disciplined (computedId : List Char) (patch : TrustRecordPatch) :
    (update entityName computedId patch).Disciplined entityName (fun _ => false) false := by
  unfold update
  simp only [bind_eq, pure_eq]
  refine (getById_disciplined entityName _).await.seq fun found => ?_
  split
  · exact disciplined_done
  · exact disciplined_modifyStore.seq fun _ => disciplined_modifyStore.seq fun _ =>
      disciplined_modifyStore.seq fun _ => disciplined_done

/-- `delete` makes every request as `Allowed` says and ends without the lock. -/
theorem delete_disciplined (computedId : List Char) :
    (delete entityName computedId).Disciplined entityName (fun _ => false) false := by
  unfold delete
  simp only [bind_eq, pure_eq]
  exact (loadIfEmpty_disciplined entityName).seq fun _ => disciplined_getStore.seq fun _ =>
    disciplined_modifyStore.seq fun _ => disciplined_ite
      (disciplined_modifyStore.seq fun _ => disciplined_modifyStore) disciplined_done

/-- `getAll` makes every request as `Allowed` says and ends without the lock. -/
theorem getAll_disciplined (receiverId : Option (List Char)) :
    (getAll entityName receiverId).Disciplined entityName (fun _ => false) false := by
  unfold getAll
  simp only [bind_eq, pure_eq]
  exact (loadIfEmpty_disciplined entityName).seq fun _ =>
    (reloadIfChanged_disciplined entityName).await.seq fun _ =>
      disciplined_getStore.seq fun _ => disciplined_done

/-- Every call starts without the lock, keeps the discipline, and ends without the lock. -/
theorem TrustStoreCall.prog_disciplined (computeTrustId : List Char → List Char → List Char)
    (c : TrustStoreCall) :
    (c.prog entityName computeTrustId).Disciplined entityName (fun _ => false) false := by
  cases c with
  | getById computedId => exact (getById_disciplined entityName computedId).map _
  | create record computedId =>
    exact (create_disciplined entityName computeTrustId record computedId).map _
  | update computedId patch => exact (update_disciplined entityName computedId patch).map _
  | delete computedId => exact (delete_disciplined entityName computedId).map _
  | getAll receiverId => exact (getAll_disciplined entityName receiverId).map _
  | flushNow => exact (writeToFile_disciplined entityName).await.map _
  | flushAndReload => exact (flushAndReload_disciplined entityName).map _
  | debouncedWrite =>
    simp only [TrustStoreCall.prog, bind_eq, pure_eq]
    exact disciplined_getStore.seq fun _ => (disciplined_ite (disciplined_modifyStore.seq
      fun _ => writeToFile_disciplined entityName) disciplined_done).seq fun _ => disciplined_done
  | signalFlush => exact (writeToFile_disciplined entityName).await.map _

end Methods

end Btps
