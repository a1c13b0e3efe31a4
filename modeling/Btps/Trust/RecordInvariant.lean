import Btps.Trust.Concurrency

/-!
# Invariants of the records under every schedule

Each store instance keeps its records in a map and writes maps to the file through the
`.tmp` file. An invariant of the records is a predicate `M` on maps and a predicate `C`
on the contents of a file. The store's own steps keep it when clearing a map, deleting
from one, loading one from a file and writing one do (`Closed`). The calls that build a
record keep it when the record `create` builds and the record `update` merges do
(`TrustStoreCall.Keeps`). A record a call returns satisfies a predicate `R` that `M`
gives to every record of its map.

`Prog.Keeps` says this of one call at every point between two events. From a state whose
map satisfies `M` and whose files satisfy `C`, the call stores only maps that satisfy
`M`, writes only files that satisfy `C`, and returns what `post` allows. Every call keeps
it (`TrustStoreCall.prog_keeps`), so every event keeps the invariant of the whole system
(`System.Keeps.step`), and so does every schedule (`System.Keeps.run`).
-/

namespace Btps

/-- The call that an event starts, if it starts one. -/
def Event.startedCall : Event → Option TrustStoreCall
  | .call _ c => some c
  | _ => none

/-- The records a reply carries. -/
def TrustStoreReply.carried : TrustStoreReply → List BTPTrustRecord
  | .found o => o.toList
  | .record r => [r]
  | .records rs => rs
  | .unit => []

section Keeps

variable (M : RecordMap → Prop) (C : TrustFile → Prop)

/-- The file and the `.tmp` file satisfy `C`. -/
def FileSystem.Holds (fs : FileSystem) : Prop :=
  (∀ f ∈ fs.file, C f.contents) ∧ ∀ f ∈ fs.tmp, C f.contents

/-- From a state whose map satisfies `M` and whose files satisfy `C`, the program stores
only maps that satisfy `M`, writes only files that satisfy `C`, and what it returns
satisfies `post`. -/
def Prog.Keeps (post : α → Prop) : Prog α → Prop
  | .done (.ok a) => post a
  | .done (.error _) => True
  | .read k => ∀ s fs, M s.recordMap → fs.Holds C → (k s fs).Keeps post
  | .write s k => M s.recordMap ∧ k.Keeps post
  | .io req k => (∀ c ∈ req.written, C c) ∧ ∀ fs, fs.Holds C → (k (req.perform fs).1).Keeps post
  | .pause p => p.Keeps post

variable (R : BTPTrustRecord → Prop)

/-- Every map satisfies `M`, the files satisfy `C`, and every call in flight keeps both
and returns only records that satisfy `R`. -/
structure System.Keeps (sys : System) : Prop where
  stores : ∀ s ∈ sys.stores, M s.recordMap
  fs : sys.fs.Holds C
  tasks : ∀ task ∈ sys.tasks, task.prog.Keeps M C fun reply => ∀ r ∈ reply.carried, R r

/-- What the store's own steps need of the invariant. `init` and `flushAndReload` clear
the map, `delete` removes a key, `init` loads a map from the file, `writeToFile` writes
the records of a map, and every record of a map satisfies `R`. -/
structure Closed (entityName : List Char) : Prop where
  empty : M RecordMap.empty
  delete : ∀ m key, M m → M (m.delete key).1
  load : ∀ raw records, C raw → raw.select entityName = some records →
    M (RecordMap.ofRecords records)
  write : ∀ m, M m → C (TrustFile.ofRecords entityName m.values)
  values : ∀ m, M m → ∀ r ∈ m.values, R r

/-- What the calls that build a record need of the invariant: the record `create` builds,
set in any map, and the record `update` merges from one it found, set in any map. -/
def TrustStoreCall.Keeps (computeTrustId : List Char → List Char → List Char) :
    TrustStoreCall → Prop
  | .create record computedId =>
    let id := computedId.getD (computeTrustId record.senderId record.receiverId)
    R (record.withId id) ∧ ∀ m, M m → M (m.set id (record.withId id))
  | .update computedId patch => ∀ m r, M m → m.get computedId = some r →
    R (r.merge patch) ∧ ∀ m', M m' → M (m'.set computedId (r.merge patch))
  | _ => True

end Keeps

namespace Prog

section Combinators

variable {M : RecordMap → Prop} {C : TrustFile → Prop}

/-- A finished program keeps the invariants when what it returns satisfies the postcondition. -/
theorem keeps_done_iff {r : Except StoreError α} {post : α → Prop} :
    (Prog.done r).Keeps M C post ↔ ∀ a, r = .ok a → post a := by
  cases r <;> simp [Keeps]

/-- A program followed by a continuation on its outcome keeps the invariants when both do. -/
theorem Keeps.andThen {p : Prog α} {f : Except StoreError α → Prog β} {postp : α → Prop}
    {post : β → Prop} (hp : p.Keeps M C postp)
    (hf : ∀ r, (∀ a, r = .ok a → postp a) → (f r).Keeps M C post) :
    (p.andThen f).Keeps M C post := by
  induction p with
  | done r => exact hf r (keeps_done_iff.mp hp)
  | read k ih => exact fun s fs hs hfs => ih s fs (hp s fs hs hfs)
  | write s k ih => exact ⟨hp.1, ih hp.2⟩
  | io req k ih => exact ⟨hp.1, fun fs hfs => ih _ (hp.2 fs hfs)⟩
  | pause p ih => exact ih hp

/-- A bind keeps the invariants when both programs do. -/
theorem Keeps.bind {p : Prog α} {f : α → Prog β} {postp : α → Prop} {post : β → Prop}
    (hp : p.Keeps M C postp) (hf : ∀ a, postp a → (f a).Keeps M C post) :
    (p.bind f).Keeps M C post :=
  hp.andThen fun
    | .ok a, h => hf a (h a rfl)
    | .error _, _ => trivial

/-- An `await` keeps what its program keeps. -/
theorem Keeps.await {p : Prog α} {post : α → Prop} (hp : p.Keeps M C post) :
    (await p).Keeps M C post :=
  hp.andThen fun _ h => keeps_done_iff.mpr h

/-- `try`/`finally` keeps the invariants when the body and the cleanup do. -/
theorem Keeps.tryFinally {p : Prog α} {fin : Prog Unit} {post : α → Prop}
    (hp : p.Keeps M C post) (hfin : fin.Keeps M C fun _ => True) :
    (tryFinally p fin).Keeps M C post :=
  hp.andThen fun _ h => hfin.bind fun _ _ => keeps_done_iff.mpr h

/-- Mapping a program's value keeps the invariants, and the postcondition when the map carries
it. -/
theorem Keeps.map {p : Prog α} {postp : α → Prop} {post : β → Prop}
    (hp : p.Keeps M C postp) {f : α → β} (hf : ∀ a, postp a → post (f a)) :
    (f <$> p).Keeps M C post :=
  hp.bind hf

/-- Reading the store's fields returns a store whose map satisfies the invariant. -/
theorem keeps_getStore : getStore.Keeps M C fun s => M s.recordMap :=
  fun _ _ hs _ => hs

/-- Writing the store's fields keeps the invariant when the change keeps it on the map. -/
theorem keeps_modifyStore {f : JsonTrustStore → JsonTrustStore}
    (hf : ∀ s, M s.recordMap → M (f s).recordMap) : (modifyStore f).Keeps M C fun _ => True :=
  fun s _ hs _ => ⟨hf s hs, trivial⟩

/-- `existsSync` keeps the invariants. -/
theorem keeps_existsSync : existsSync.Keeps M C fun _ => True :=
  fun _ _ _ _ => trivial

/-- A request keeps the invariants when every file it writes satisfies the file invariant. -/
theorem keeps_request {req : IoRequest β} (hreq : ∀ c ∈ req.written, C c) :
    (request req).Keeps M C fun _ => True :=
  ⟨hreq, fun _ _ => keeps_done_iff.mpr fun _ _ => trivial⟩

/-- `fs.readFile` answers with the contents of the file, which satisfy `C`. -/
theorem keeps_readFile : (request .readFile).Keeps M C C := by
  refine ⟨(fun _ h => nomatch h), fun fs hfs => keeps_done_iff.mpr fun raw hraw => ?_⟩
  cases hf : fs.file with
  | none => simp [IoRequest.perform, hf] at hraw
  | some f =>
    simp only [IoRequest.perform, hf, Except.ok.injEq] at hraw
    exact hraw ▸ hfs.1 f hf

/-- A branch keeps the invariants when both arms do. -/
theorem keeps_ite {c : Prop} [Decidable c] {p q : Prog α} {post : α → Prop}
    (hp : p.Keeps M C post) (hq : q.Keeps M C post) : (if c then p else q).Keeps M C post := by
  split
  exacts [hp, hq]

/-- A step the code takes only under a condition, as `if (...) await ...` does. -/
theorem keeps_when {c : Prop} [Decidable c] {p : Prog Unit} (hp : p.Keeps M C fun _ => True) :
    (if c then p else done (.ok ())).Keeps M C fun _ => True :=
  keeps_ite hp trivial

/-- A guard that throws, as `if (...) throw ...` does. -/
theorem keeps_guard {c : Prop} [Decidable c] {e : StoreError} :
    (if c then Prog.throw e else done (.ok ())).Keeps M C fun _ => True :=
  keeps_when trivial

/-- A call that has returned returned what `post` allows. -/
theorem Keeps.returned {p : Prog α} {post : α → Prop} (hp : p.Keeps M C post) {a : α}
    (h : a ∈ p.returned) : post a := by
  match p, h with
  | .done (.ok _), rfl => exact hp

/-- What is left of a call once it awaits still keeps the invariant, and so does the store
it leaves. -/
theorem Keeps.settle {p : Prog α} {post : α → Prop} (hp : p.Keeps M C post)
    {s : JsonTrustStore} {fs : FileSystem} (hs : M s.recordMap) (hfs : fs.Holds C) :
    (p.settle s fs).1.Keeps M C post ∧ M (p.settle s fs).2.recordMap := by
  induction p generalizing s with
  | done r => exact ⟨hp, hs⟩
  | read k ih => exact ih s fs (hp s fs hs hfs) hs
  | write s' k ih => exact ih hp.2 hp.1
  | io req k ih => exact ⟨hp, hs⟩
  | pause p ih => exact ⟨hp, hs⟩

end Combinators

end Prog

/-- A request that writes only files satisfying `C` keeps the file and the `.tmp` file
so. -/
theorem FileSystem.Holds.perform {C : TrustFile → Prop} {fs : FileSystem} (hfs : fs.Holds C)
    {req : IoRequest β} (hreq : ∀ c ∈ req.written, C c) : (req.perform fs).2.Holds C := by
  refine ⟨fun f hf => ?_, fun f hf => ?_⟩
  · rcases IoRequest.mem_respond_file (show f ∈ (req.respond false fs).2.file from hf) with
      hold | ⟨-, htmp⟩ | hnew
    exacts [hfs.1 f hold, hfs.2 f htmp, hreq _ hnew]
  · rcases IoRequest.mem_perform_tmp hf with hold | hnew
    exacts [hfs.2 f hold, hreq _ hnew]

/-! ### Every call keeps the invariant -/

section Methods

variable {M : RecordMap → Prop} {C : TrustFile → Prop} {R : BTPTrustRecord → Prop}
  {entityName : List Char} (hM : Closed M C R entityName)

include hM

open Prog

/-- `writeToFile` writes the records of its own map to the `.tmp` file. -/
theorem writeToFile_keeps : (writeToFile entityName).Keeps M C fun _ => True := by
  unfold writeToFile
  simp only [bind_eq, pure_eq]
  refine keeps_getStore.bind fun _ _ => keeps_ite trivial ?_
  refine (keeps_modifyStore fun _ hs => hs).bind fun _ _ => (keeps_request nofun).bind
    fun _ _ => Keeps.tryFinally ?_ (keeps_request nofun)
  exact keeps_getStore.bind fun _ hs =>
    (keeps_request fun _ hc => by cases hc; exact hM.write _ hs).bind fun _ _ =>
      (keeps_request nofun).bind fun _ _ => (keeps_request nofun).bind fun _ _ =>
        keeps_modifyStore fun _ hs => hs

/-- `init` writes only an empty file, and fills the map with what the file holds. -/
theorem init_keeps : (init entityName).Keeps M C fun _ => True := by
  unfold init
  simp only [bind_eq, pure_eq]
  refine keeps_existsSync.bind fun _ _ =>
    (keeps_when (keeps_request fun _ hc => by cases hc; exact hM.write _ hM.empty)).bind
      fun _ _ => keeps_readFile.bind fun raw hraw => keeps_guard.bind fun _ _ =>
        (keeps_modifyStore fun _ _ => hM.empty).bind fun _ _ => ?_
  split
  · rename_i records hselect
    exact keeps_modifyStore fun _ _ => hM.load raw records hraw hselect
  · trivial

/-- `flushAndReload` keeps the invariants. -/
theorem flushAndReload_keeps : (flushAndReload entityName).Keeps M C fun _ => True := by
  unfold flushAndReload
  simp only [bind_eq]
  exact (writeToFile_keeps hM).await.bind fun _ _ =>
    (keeps_modifyStore fun _ _ => hM.empty).bind fun _ _ => (init_keeps hM).await

/-- `reloadIfChanged` keeps the invariants. -/
theorem reloadIfChanged_keeps : (reloadIfChanged entityName).Keeps M C fun _ => True := by
  unfold reloadIfChanged
  simp only [bind_eq, pure_eq]
  exact (keeps_request nofun).bind fun _ _ => keeps_getStore.bind fun _ _ =>
    keeps_ite ((flushAndReload_keeps hM).await.bind fun _ _ =>
      keeps_modifyStore fun _ hs => hs) trivial

/-- `if (this.recordMap.size === 0) await this.init()`. -/
theorem loadIfEmpty_keeps :
    (getStore.bind fun s => (if s.recordMap.size = 0 then await (init entityName)
      else .done (.ok ()) : Prog Unit)).Keeps M C fun _ => True :=
  keeps_getStore.bind fun _ _ => keeps_ite (init_keeps hM).await trivial

/-- `getById` returns what a map of the invariant holds under the id. -/
theorem getById_keeps (computedId : List Char) :
    (getById entityName computedId).Keeps M C
      fun found => ∃ m, M m ∧ found = m.get computedId := by
  unfold getById
  simp only [bind_eq, pure_eq]
  exact (loadIfEmpty_keeps hM).bind fun _ _ =>
    (reloadIfChanged_keeps hM).await.bind fun _ _ => keeps_getStore.bind
      fun _ hs => ⟨_, hs, rfl⟩

variable (computeTrustId : List Char → List Char → List Char)

/-- `create` sets and returns the record it builds from its input. -/
theorem create_keeps {record : TrustRecordInput} {computedId : Option (List Char)}
    (hc : (TrustStoreCall.create record computedId).Keeps M R computeTrustId) :
    (create entityName computeTrustId record computedId).Keeps M C R := by
  unfold create
  simp only [bind_eq, pure_eq]
  exact keeps_guard.bind fun _ _ => (getById_keeps hM _).await.bind fun _ _ =>
    keeps_guard.bind fun _ _ => (keeps_modifyStore fun _ hs => hc.2 _ hs).bind fun _ _ =>
      (keeps_modifyStore fun _ hs => hs).bind fun _ _ =>
        (keeps_modifyStore fun _ hs => hs).bind fun _ _ => hc.1

/-- `update` sets and returns its patch merged into the record `getById` found. -/
theorem update_keeps {computedId : List Char} {patch : TrustRecordPatch}
    (hc : (TrustStoreCall.update computedId patch).Keeps M R computeTrustId) :
    (update entityName computedId patch).Keeps M C R := by
  unfold update
  simp only [bind_eq, pure_eq]
  refine (getById_keeps hM _).await.bind fun found ⟨m, hm, hfound⟩ => ?_
  cases found with
  | none => trivial
  | some r =>
    have hupdated := hc m r hm hfound.symm
    exact (keeps_modifyStore fun _ hs => hupdated.2 _ hs).bind fun _ _ =>
      (keeps_modifyStore fun _ hs => hs).bind fun _ _ =>
        (keeps_modifyStore fun _ hs => hs).bind fun _ _ => hupdated.1

/-- `delete` keeps the invariants. -/
theorem delete_keeps (computedId : List Char) :
    (delete entityName computedId).Keeps M C fun _ => True := by
  unfold delete
  simp only [bind_eq, pure_eq]
  exact (loadIfEmpty_keeps hM).bind fun _ _ => keeps_getStore.bind fun _ hs =>
    (keeps_modifyStore fun _ _ => hM.delete _ computedId hs).bind fun _ _ =>
      keeps_ite ((keeps_modifyStore fun _ hs => hs).bind fun _ _ =>
        keeps_modifyStore fun _ hs => hs) trivial

/-- `getAll` returns records of a map of the invariant, filtered or not. -/
theorem getAll_keeps (receiverId : Option (List Char)) :
    (getAll entityName receiverId).Keeps M C fun all => ∀ r ∈ all, R r := by
  unfold getAll
  simp only [bind_eq, pure_eq]
  refine (loadIfEmpty_keeps hM).bind fun _ _ =>
    (reloadIfChanged_keeps hM).await.bind fun _ _ => keeps_getStore.bind fun s hs => ?_
  have hall := hM.values _ hs
  show ∀ r ∈ _, R r
  split
  · split
    · exact hall
    · exact fun r hr => hall r (List.mem_filter.mp hr).1
  · exact hall

/-- The debounce timer's write keeps the invariants. -/
theorem debouncedWrite_keeps : (Btps.debouncedWrite entityName).Keeps M C fun _ => True := by
  unfold Btps.debouncedWrite
  exact (keeps_modifyStore fun _ hs => hs).bind fun _ _ => writeToFile_keeps hM

/-- A call that keeps the invariant stores and writes only what keeps it, and returns only
records that satisfy `R`. -/
theorem TrustStoreCall.prog_keeps {c : TrustStoreCall} (hc : c.Keeps M R computeTrustId) :
    (c.prog entityName computeTrustId).Keeps M C fun reply => ∀ r ∈ reply.carried, R r := by
  cases c with
  | getById computedId =>
    exact (getById_keeps hM computedId).map fun _ ⟨m, hm, hfound⟩ r hr =>
      hM.values m hm r (RecordMap.mem_values_of_get (hfound ▸ Option.mem_toList.mp hr))
  | create record computedId =>
    exact (create_keeps hM computeTrustId hc).map fun _ h => List.forall_mem_singleton.mpr h
  | update computedId patch =>
    exact (update_keeps hM computeTrustId hc).map fun _ h => List.forall_mem_singleton.mpr h
  | delete computedId =>
    exact (delete_keeps hM computedId).map fun _ _ => List.forall_mem_nil _
  | getAll receiverId => exact (getAll_keeps hM receiverId).map fun _ h => h
  | flushNow => exact (writeToFile_keeps hM).await.map fun _ _ => List.forall_mem_nil _
  | flushAndReload =>
    exact (flushAndReload_keeps hM).map fun _ _ => List.forall_mem_nil _
  | debouncedWrite =>
    simp only [TrustStoreCall.prog, bind_eq, pure_eq]
    refine keeps_getStore.bind fun _ _ =>
      Keeps.bind (keeps_when (debouncedWrite_keeps hM)) fun _ _ => ?_
    exact List.forall_mem_nil _
  | signalFlush => exact (writeToFile_keeps hM).await.map fun _ _ => List.forall_mem_nil _

end Methods

/-! ### Every schedule keeps the invariant -/

section Run

variable {M : RecordMap → Prop} {C : TrustFile → Prop} {R : BTPTrustRecord → Prop}
  {entityName : List Char} {computeTrustId : List Char → List Char → List Char}
  {sys sys' : System}

/-- Replacing one element of a list by one with a property keeps the property of every element. -/
theorem forall_mem_set_of {P : α → Prop} {l : List α} {i : Nat} {a : α}
    (hl : ∀ x ∈ l, P x) (ha : P a) : ∀ x ∈ l.set i a, P x :=
  fun x hx => (List.mem_or_eq_of_mem_set hx).elim (hl x) (· ▸ ha)

/-- One event keeps the invariant of the system, when the call it starts, if any, keeps
it. -/
theorem System.Keeps.step (hM : Closed M C R entityName) (h : sys.Keeps M C R) {e : Event}
    (hcall : ∀ c, e.startedCall = some c → c.Keeps M R computeTrustId)
    (hstep : sys.step entityName computeTrustId e = some sys') : sys'.Keeps M C R := by
  cases e with
  | call owner c =>
    obtain ⟨s, hs, rfl⟩ := System.step_call_eq_some hstep
    have hsettle := (TrustStoreCall.prog_keeps hM computeTrustId (hcall c rfl)).settle
      (h.stores s (List.getElem?_mem hs)) h.fs
    exact ⟨forall_mem_set_of h.stores hsettle.2, h.fs,
      List.forall_mem_append.mpr ⟨h.tasks, List.forall_mem_singleton.mpr hsettle.1⟩⟩
  | effect t =>
    obtain ⟨owner, β, req, k, htask, rfl⟩ := System.step_effect_eq_some hstep
    have hp := h.tasks _ (List.getElem?_mem htask)
    exact ⟨h.stores, h.fs.perform hp.1, forall_mem_set_of h.tasks (hp.2 sys.fs h.fs)⟩
  | resume t =>
    obtain ⟨owner, p, s, htask, hs, rfl⟩ := System.step_resume_eq_some hstep
    have hp : p.Keeps M C fun reply => ∀ r ∈ reply.carried, R r :=
      h.tasks _ (List.getElem?_mem htask)
    have hsettle := hp.settle (h.stores s (List.getElem?_mem hs)) h.fs
    exact ⟨forall_mem_set_of h.stores hsettle.2, h.fs, forall_mem_set_of h.tasks hsettle.1⟩

/-- A schedule whose started calls keep the invariant keeps the invariant of the
system. -/
theorem System.Keeps.run (hM : Closed M C R entityName) (h : sys.Keeps M C R)
    {es : List Event}
    (hcalls : ∀ c ∈ es.filterMap Event.startedCall, c.Keeps M R computeTrustId)
    (hrun : System.run entityName computeTrustId es sys = some sys') : sys'.Keeps M C R := by
  induction es generalizing sys with
  | nil =>
    cases hrun
    exact h
  | cons e es ih =>
    obtain ⟨sys₁, h₁, hrest⟩ := Option.bind_eq_some.mp hrun
    have hfirst := h.step hM (fun c hc =>
      hcalls c (List.mem_filterMap.mpr ⟨e, List.mem_cons_self _ _, hc⟩)) h₁
    exact ih hfirst (fun c hc =>
      hcalls c (((List.sublist_cons_self e es).filterMap _).subset hc)) hrest

/-- With no call in flight, the system keeps the invariant when its stores and files
do. -/
theorem System.keeps_start {stores : List JsonTrustStore} {fs : FileSystem}
    (hstores : ∀ s ∈ stores, M s.recordMap) (hfs : fs.Holds C) :
    System.Keeps M C R ⟨stores, fs, []⟩ :=
  ⟨hstores, hfs, fun _ h => nomatch h⟩

/-- In a system that keeps the invariant every record a call has returned satisfies
`R`. -/
theorem System.Keeps.replies (h : sys.Keeps M C R) :
    ∀ task ∈ sys.tasks, ∀ reply ∈ task.prog.returned, ∀ r ∈ reply.carried, R r :=
  fun task htask _ hreply => (h.tasks task htask).returned hreply

end Run

end Btps
