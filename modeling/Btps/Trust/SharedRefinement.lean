import Btps.Trust.RecordInvariant

/-!
# Stores that take turns over one file implement one trust map

One store alone implements the trust map (`runCalls_refines_trustMap`). Several stores
over one file do too when their calls take turns and every change is flushed at once.
Each call then runs to its end before the next starts (`System.runAlone`, a schedule of
the system by `System.run_runAlone`), and every `create`, `update` and `delete` is
followed at once by `flushNow()` on its store (`Flushed`).

A store that has not seen another store's write notices it. Every write gives the file a
modification time that no store has seen yet: the model's disk stamps each write with its
clock (`FileSystem.writeTmp`), where a real `mtimeMs` can repeat. `getById`, `getAll`,
`create` and `update` first compare the file's time with the one the store last saw, and
reload the file when the two differ (`Synced`). So every call returns what the trust map
returns, and the file always loads to the trust map (`shared_stores_refine_trustMap`). In
particular no record is lost: when each `create` adds a record under a new id and no other
call changes a record, the file ends holding its records followed by the created ones, and
every store's next `getAll()` returns them (`shared_file_loads_and_rereads`).

`delete` loads the file only into an empty map and never compares the modification times.
A store that has not seen another store's write deletes from its old map, and once
flushed it writes that old map over the file (`delete_stale_loses_record`). So `Flushed`
asks for a `getById` on the same store right before each `delete`: the read reloads.
-/

namespace Btps

/-- The system after calls started one at a time, each on the store it names and run to
its end before the next one starts. A call on a store that does not exist ends the run. -/
def System.runAlone (entityName : List Char) (computeTrustId : List Char → List Char → List Char) :
    List (Nat × TrustStoreCall) → System → System
  | [], sys => sys
  | (owner, c) :: cs, sys =>
    match sys.stores[owner]? with
    | none => sys
    | some s =>
      runAlone entityName computeTrustId cs
        ⟨sys.stores.set owner ((c.prog entityName computeTrustId).run ⟨s, sys.fs⟩ []).world.store,
          ((c.prog entityName computeTrustId).run ⟨s, sys.fs⟩ []).world.fs,
          sys.tasks ++
            [⟨owner, .done ((c.prog entityName computeTrustId).run ⟨s, sys.fs⟩ []).result⟩]⟩

/-- Calls that take turns are a schedule of the system. -/
theorem System.run_runAlone (entityName : List Char)
    (computeTrustId : List Char → List Char → List Char) (calls : List (Nat × TrustStoreCall))
    (sys : System) :
    ∃ es, System.run entityName computeTrustId es sys =
      some (System.runAlone entityName computeTrustId calls sys) := by
  induction calls generalizing sys with
  | nil => exact ⟨[], rfl⟩
  | cons p cs ih =>
    obtain ⟨owner, c⟩ := p
    cases hs : sys.stores[owner]? with
    | none => exact ⟨[], by simp [System.runAlone, hs, System.run]⟩
    | some s =>
      obtain ⟨es₁, -, h₁⟩ := System.run_call_alone entityName computeTrustId sys hs c
      obtain ⟨es₂, h₂⟩ := ih ⟨sys.stores.set owner
        ((c.prog entityName computeTrustId).run ⟨s, sys.fs⟩ []).world.store,
        ((c.prog entityName computeTrustId).run ⟨s, sys.fs⟩ []).world.fs,
        sys.tasks ++
          [⟨owner, .done ((c.prog entityName computeTrustId).run ⟨s, sys.fs⟩ []).result⟩]⟩
      exact ⟨(.call owner c :: es₁) ++ es₂, by
        rw [System.run_append, h₁]
        simpa [System.runAlone, hs] using h₂⟩

/-- `n` new store instances over the file, with no call in flight. -/
def System.fresh (n : Nat) (fs : FileSystem) : System := ⟨List.replicate n .fresh, fs, []⟩

/-- The calls that change records. -/
def TrustStoreCall.changesRecords : TrustStoreCall → Bool
  | .create _ _ | .update _ _ | .delete _ => true
  | _ => false

/-- The calls of a client whose stores take turns, who follows every `create` and `update`
at once by `flushNow()` on the same store, never patches another id than the one it
updates, and deletes only right after a `getById` on the same store, following the
`delete` at once by `flushNow()`. -/
inductive Flushed : List (Nat × TrustStoreCall) → Prop
  | nil : Flushed []
  | keep {owner : Nat} {c : TrustStoreCall} {cs : List (Nat × TrustStoreCall)} :
      c.changesRecords = false → Flushed cs → Flushed ((owner, c) :: cs)
  | create {owner : Nat} {record : TrustRecordInput} {computedId : Option (List Char)}
      {cs : List (Nat × TrustStoreCall)} :
      Flushed cs → Flushed ((owner, .create record computedId) :: (owner, .flushNow) :: cs)
  | update {owner : Nat} {computedId : List Char} {patch : TrustRecordPatch}
      {cs : List (Nat × TrustStoreCall)} : (∀ id ∈ patch.id, id = computedId) →
      Flushed cs → Flushed ((owner, .update computedId patch) :: (owner, .flushNow) :: cs)
  | delete {owner : Nat} {computedId' computedId : List Char} {cs : List (Nat × TrustStoreCall)} :
      Flushed cs → Flushed ((owner, .getById computedId') :: (owner, .delete computedId) ::
        (owner, .flushNow) :: cs)

/-- A clean store that reads the file's map `R` before its own: it has seen no
modification time the disk has not given yet, and whenever it has seen the file's, it
holds `R` or nothing. -/
structure Synced (R : RecordMap) (fs : FileSystem) (s : JsonTrustStore) : Prop where
  clean : s.dirty = false
  seen : s.lastChangedMtime < fs.clock
  current : ∀ f ∈ fs.file, s.lastChangedMtime = f.mtime →
    s.recordMap = R ∨ s.recordMap = RecordMap.empty

/-- An unlocked file that loads to the trust map `R`, with a modification time the disk
gave before the clock's. -/
structure SharedFile (entityName : List Char) (R : RecordMap) (fs : FileSystem) : Prop where
  keyed : R.KeyedById
  load : fs.load entityName = some R
  unlocked : fs.locked = false
  file : ∀ f ∈ fs.file, f.mtime < fs.clock

/-- Stores over a file that loads to the trust map `R`, each synced with it. -/
structure SharedSynced (entityName : List Char) (R : RecordMap) (stores : List JsonTrustStore)
    (fs : FileSystem) extends SharedFile entityName R fs : Prop where
  stores : ∀ s ∈ stores, Synced R fs s

/-- A store after a `create`, an `update` or a `delete` takes the trust map `R` to `R'`:
still clean, it changed nothing and is synced; dirty, it holds `R'`. -/
structure Changed (R R' : RecordMap) (fs : FileSystem) (s : JsonTrustStore) : Prop where
  keyed : R'.KeyedById
  clean : s.dirty = false → R' = R ∧ Synced R fs s
  dirty : s.dirty = true → s.recordMap = R'

/-! ### A synced store reloads before it reads -/

section Reload

variable {entityName : List Char} {R : RecordMap} {fs : FileSystem} {f : StoredFile}
  {s : JsonTrustStore}

open Prog

/-- `reloadIfChanged` ends with the file's map and modification time whenever the store
holds the file's map once it has seen that time. -/
theorem reloadIfChanged_run_of_current (hclean : s.dirty = false)
    (hload : fs.load entityName = some R) (hf : fs.file = some f)
    (hcurrent : s.lastChangedMtime = f.mtime → s.recordMap = R) :
    (reloadIfChanged entityName).run ⟨s, fs⟩ [] =
      ⟨.ok (), ⟨{ s with recordMap := R, lastChangedMtime := f.mtime }, fs⟩, []⟩ := by
  by_cases hL : f.mtime = s.lastChangedMtime
  · have hsame : { s with recordMap := R, lastChangedMtime := f.mtime } = s := by
      rw [← hcurrent hL.symm, hL]
    rw [hsame]
    simp [reloadIfChanged, run_bind, hf, IoRequest.respond, IoRequest.perform, hL]
  · simp [reloadIfChanged, run_bind, hf, IoRequest.respond, IoRequest.perform, hL,
      flushAndReload_run_of_clean (w := ⟨s, fs⟩) hclean hload]

/-- A synced store whose map is not empty holds the file's map once it has seen the file's
time. -/
theorem Synced.current_of_size (hs : Synced R fs s) (hf : fs.file = some f)
    (hsize : ¬s.recordMap.size = 0) : s.lastChangedMtime = f.mtime → s.recordMap = R :=
  fun hL => (hs.current f hf hL).resolve_right fun hempty =>
    hsize (by simp [hempty, RecordMap.size, RecordMap.empty])

/-- `getById` on a synced store loads the file into an empty map, reloads it if the store
has not seen its time, and returns what the file's map holds under the id. -/
theorem getById_run_of_synced (hs : Synced R fs s) (hload : fs.load entityName = some R)
    (hf : fs.file = some f) (computedId : List Char) :
    (getById entityName computedId).run ⟨s, fs⟩ [] =
      ⟨.ok (R.get computedId), ⟨{ s with recordMap := R, lastChangedMtime := f.mtime }, fs⟩,
        []⟩ := by
  by_cases hsize : s.recordMap.size = 0
  · simp [getById, run_bind, hsize, init_run_of_load (w := ⟨s, fs⟩) hload,
      reloadIfChanged_run_of_current (s := { s with recordMap := R }) hs.clean hload hf]
  · simp [getById, run_bind, hsize,
      reloadIfChanged_run_of_current hs.clean hload hf (hs.current_of_size hf hsize)]

/-- `getAll` on a synced store loads the file into an empty map, reloads it if the store
has not seen its time, and returns the file's records. -/
theorem getAll_run_of_synced (hs : Synced R fs s) (hload : fs.load entityName = some R)
    (hf : fs.file = some f) (receiverId : Option (List Char)) :
    (getAll entityName receiverId).run ⟨s, fs⟩ [] =
      ⟨.ok (TrustMap.recordsFor receiverId R.values),
        ⟨{ s with recordMap := R, lastChangedMtime := f.mtime }, fs⟩, []⟩ := by
  by_cases hsize : s.recordMap.size = 0
  · cases receiverId <;> simp [getAll, run_bind, hsize, init_run_of_load (w := ⟨s, fs⟩) hload,
      reloadIfChanged_run_of_current (s := { s with recordMap := R }) hs.clean hload hf,
      TrustMap.recordsFor]
  · cases receiverId <;> simp [getAll, run_bind, hsize,
      reloadIfChanged_run_of_current hs.clean hload hf (hs.current_of_size hf hsize),
      TrustMap.recordsFor]

/-- A synced store that has reloaded the file is synced. -/
theorem Synced.reloaded (hs : Synced R fs s) (hfile : f.mtime < fs.clock) :
    Synced R fs { s with recordMap := R, lastChangedMtime := f.mtime } :=
  ⟨hs.clean, hfile, fun _ _ _ => Or.inl rfl⟩

/-- `writeToFile` on a dirty store over a free lock writes its map over the file, which
takes the clock's time, and leaves the store clean with that time. -/
theorem writeToFile_run_of_dirty (hdirty : s.dirty = true) (hunlocked : fs.locked = false) :
    (writeToFile entityName).run ⟨s, fs⟩ [] =
      ⟨.ok (), ⟨{ s with dirty := false, lastChangedMtime := fs.clock },
        ⟨some ⟨.ofRecords entityName s.recordMap.values, fs.clock⟩, none, false, fs.clock + 1⟩⟩,
        []⟩ := by
  simp [writeToFile, run_bind, run_tryFinally, hdirty, IoRequest.respond, IoRequest.perform,
    hunlocked, FileSystem.writeTmp, FileSystem.rename]

/-- `writeToFile` on a clean store does nothing. -/
theorem writeToFile_run_of_clean (hclean : s.dirty = false) :
    (writeToFile entityName).run ⟨s, fs⟩ [] = ⟨.ok (), ⟨s, fs⟩, []⟩ := by
  simp [writeToFile, run_bind, hclean]

/-- A store synced with a file stays synced with the file a write puts over it at the
clock's time: it cannot have seen that time. -/
theorem Synced.written (hs : Synced R fs s) (contents : TrustFile) (R' : RecordMap) :
    Synced R' ⟨some ⟨contents, fs.clock⟩, none, false, fs.clock + 1⟩ s :=
  ⟨hs.clean, Nat.lt_succ_of_lt hs.seen, by
    rintro _ ⟨⟩ hL
    exact absurd hL (Nat.ne_of_lt hs.seen)⟩

/-- A synced store that has changed nothing. -/
theorem Synced.changed (hs : Synced R fs s) (hR : R.KeyedById) : Changed R R fs s :=
  ⟨hR, fun _ => ⟨rfl, hs⟩, fun hd => by simp [hs.clean] at hd⟩

end Reload

/-! ### Each call on a synced store -/

section Calls

variable {entityName : List Char} (computeTrustId : List Char → List Char → List Char)
  {R R' : RecordMap} {fs : FileSystem} {s : JsonTrustStore}

open Prog

/-- A call that changes no record, on a synced store, returns what the trust map returns
and leaves the file and the trust map as they were and the store synced. -/
theorem keep_run_of_synced (h : SharedFile entityName R fs) (hs : Synced R fs s)
    {c : TrustStoreCall} (hc : c.changesRecords = false) :
    ∃ s', (c.prog entityName computeTrustId).run ⟨s, fs⟩ [] =
        ⟨(TrustMap.call computeTrustId c R).1, ⟨s', fs⟩, []⟩ ∧
      (TrustMap.call computeTrustId c R).2 = R ∧ Synced R fs s' := by
  obtain ⟨f, -, hf, -, -⟩ := FileSystem.load_eq_some.mp h.load
  cases c with
  | getById computedId =>
    exact ⟨_, by simp [TrustStoreCall.prog, getById_run_of_synced hs h.load hf, TrustMap.call,
      Except.map], rfl, hs.reloaded (h.file f hf)⟩
  | getAll receiverId =>
    exact ⟨_, by simp [TrustStoreCall.prog, getAll_run_of_synced hs h.load hf, TrustMap.call,
      Except.map], rfl, hs.reloaded (h.file f hf)⟩
  | flushNow =>
    exact ⟨s, by simp [TrustStoreCall.prog, Btps.flushNow, writeToFile_run_of_clean hs.clean,
      TrustMap.call, Except.map], rfl, hs⟩
  | flushAndReload =>
    exact ⟨{ s with recordMap := R }, by simp [TrustStoreCall.prog,
      flushAndReload_run_of_clean (w := ⟨s, fs⟩) hs.clean h.load, TrustMap.call, Except.map], rfl,
      ⟨hs.clean, hs.seen, fun _ _ _ => .inl rfl⟩⟩
  | debouncedWrite =>
    cases hp : s.writePending
    · exact ⟨s, by simp [TrustStoreCall.prog, run_bind, hp, TrustMap.call], rfl, hs⟩
    · exact ⟨{ s with writePending := false }, by simp [TrustStoreCall.prog, run_bind, hp,
        Btps.debouncedWrite,
        writeToFile_run_of_clean (s := { s with writePending := false }) hs.clean,
        TrustMap.call], rfl, ⟨hs.clean, hs.seen, hs.current⟩⟩
  | signalFlush =>
    exact ⟨s, by simp [TrustStoreCall.prog, Btps.signalFlush, writeToFile_run_of_clean hs.clean,
      TrustMap.call, Except.map], rfl, hs⟩
  | create | update | delete => cases hc

/-- `create` on a synced store returns what the trust map returns and leaves the file as it
was. -/
theorem create_run_of_synced (h : SharedFile entityName R fs) (hs : Synced R fs s)
    (record : TrustRecordInput) (computedId : Option (List Char)) :
    ∃ s₁, ((TrustStoreCall.create record computedId).prog entityName computeTrustId).run
          ⟨s, fs⟩ [] =
        ⟨(TrustMap.call computeTrustId (.create record computedId) R).1, ⟨s₁, fs⟩, []⟩ ∧
      Changed R (TrustMap.call computeTrustId (.create record computedId) R).2 fs s₁ := by
  obtain ⟨f, -, hf, -, -⟩ := FileSystem.load_eq_some.mp h.load
  have hget := getById_run_of_synced hs h.load hf
    (computedId.getD (computeTrustId record.senderId record.receiverId))
  by_cases hid : record.id.isSome
  · exact ⟨s, by simp [TrustStoreCall.prog, create, run_bind, hid, TrustMap.call, Except.map],
      by simpa [TrustMap.call, hid] using hs.changed h.keyed⟩
  by_cases hfound :
      (R.get (computedId.getD (computeTrustId record.senderId record.receiverId))).isSome
  · exact ⟨{ s with recordMap := R, lastChangedMtime := f.mtime }, by simp [TrustStoreCall.prog,
      create, run_bind, hid, hget, hfound, TrustMap.call, Except.map],
      by simpa [TrustMap.call, hid, hfound] using (hs.reloaded (h.file f hf)).changed h.keyed⟩
  · refine ⟨{ s with
      recordMap := R.set (computedId.getD (computeTrustId record.senderId record.receiverId))
        (record.withId (computedId.getD (computeTrustId record.senderId record.receiverId))),
      lastChangedMtime := f.mtime, dirty := true, writePending := true }, ?_,
      ⟨?_, (fun hd => nomatch hd), fun _ => by simp [TrustMap.call, hid, hfound]⟩⟩
    · simp [TrustStoreCall.prog, create, run_bind, hid, hget, hfound, TrustMap.call,
        writeDebounced, Except.map]
    · simpa [TrustMap.call, hid, hfound] using h.keyed.set (record.withId_id _)

/-- `update` on a synced store, with a patch that keeps the id, returns what the trust map
returns and leaves the file as it was. -/
theorem update_run_of_synced (h : SharedFile entityName R fs) (hs : Synced R fs s)
    {computedId : List Char} {patch : TrustRecordPatch}
    (hpatch : ∀ id ∈ patch.id, id = computedId) :
    ∃ s₁, ((TrustStoreCall.update computedId patch).prog entityName computeTrustId).run ⟨s, fs⟩ [] =
        ⟨(TrustMap.call computeTrustId (.update computedId patch) R).1, ⟨s₁, fs⟩, []⟩ ∧
      Changed R (TrustMap.call computeTrustId (.update computedId patch) R).2 fs s₁ := by
  obtain ⟨f, -, hf, -, -⟩ := FileSystem.load_eq_some.mp h.load
  have hget := getById_run_of_synced hs h.load hf computedId
  cases hr : R.get computedId with
  | none =>
    exact ⟨{ s with recordMap := R, lastChangedMtime := f.mtime }, by simp [TrustStoreCall.prog,
      update, run_bind, hget, hr, TrustMap.call, Except.map],
      by simpa [TrustMap.call, hr] using (hs.reloaded (h.file f hf)).changed h.keyed⟩
  | some r =>
    refine ⟨{ s with
      recordMap := R.set computedId (r.merge patch), lastChangedMtime := f.mtime, dirty := true,
      writePending := true }, ?_,
      ⟨by simpa [TrustMap.call, hr] using h.keyed.set (h.keyed.merge_id hr hpatch),
        (fun hd => nomatch hd),
        fun _ => by simp [TrustMap.call, hr]⟩⟩
    simp [TrustStoreCall.prog, update, run_bind, hget, hr, TrustMap.call, writeDebounced,
      Except.map]

/-- `delete` on a synced store that holds the file's map returns what the trust map
returns and leaves the file as it was. -/
theorem delete_run_of_current (h : SharedFile entityName R fs) (hs : Synced R fs s)
    (hm : s.recordMap = R) (computedId : List Char) :
    ∃ s₁, ((TrustStoreCall.delete computedId).prog entityName computeTrustId).run ⟨s, fs⟩ [] =
        ⟨(TrustMap.call computeTrustId (.delete computedId) R).1, ⟨s₁, fs⟩, []⟩ ∧
      Changed R (TrustMap.call computeTrustId (.delete computedId) R).2 fs s₁ := by
  subst hm
  have hinit : (init entityName).run ⟨s, fs⟩ [] = ⟨.ok (), ⟨s, fs⟩, []⟩ := by
    simpa using init_run_of_load (w := ⟨s, fs⟩) h.load
  cases hdel : (s.recordMap.delete computedId).2
  · have hsame := RecordMap.delete_of_not_deleted hdel
    refine ⟨s, ?_, by simpa [TrustMap.call, hsame] using hs.changed h.keyed⟩
    by_cases hsize : s.recordMap.size = 0 <;>
      simp [TrustStoreCall.prog, delete, run_bind, hinit, hsize, hdel, hsame, TrustMap.call,
        Except.map]
  · refine ⟨{ s with
      recordMap := (s.recordMap.delete computedId).1, dirty := true, writePending := true },
      ?_, ⟨h.keyed.delete computedId, (fun hd => nomatch hd), fun _ => rfl⟩⟩
    by_cases hsize : s.recordMap.size = 0 <;>
      simp [TrustStoreCall.prog, delete, run_bind, hinit, hsize, hdel, TrustMap.call,
        writeDebounced, Except.map]

/-- `flushNow()` right after a change writes the changed map over the file when the change
made the store dirty. Every store synced with the old file is then synced with the new
one, which has a time no store has seen. -/
theorem flushNow_run_of_changed (h : SharedFile entityName R fs) (hs : Changed R R' fs s) :
    ∃ s₂ fs', (TrustStoreCall.flushNow.prog entityName computeTrustId).run ⟨s, fs⟩ [] =
        ⟨.ok .unit, ⟨s₂, fs'⟩, []⟩ ∧ SharedFile entityName R' fs' ∧ Synced R' fs' s₂ ∧
      ∀ t, Synced R fs t → Synced R' fs' t := by
  cases hd : s.dirty
  · obtain ⟨rfl, hsync⟩ := hs.clean hd
    exact ⟨s, fs, by simp [TrustStoreCall.prog, Btps.flushNow, writeToFile_run_of_clean hd,
      Except.map], h, hsync, fun _ => id⟩
  · refine ⟨{ s with dirty := false, lastChangedMtime := fs.clock },
      ⟨some ⟨.ofRecords entityName s.recordMap.values, fs.clock⟩, none, false, fs.clock + 1⟩,
      by simp [TrustStoreCall.prog, Btps.flushNow, writeToFile_run_of_dirty hd h.unlocked,
        Except.map], ⟨hs.keyed, ?_, rfl, ?_⟩,
      ⟨rfl, Nat.lt_succ_self _, fun _ _ _ => .inl (hs.dirty hd)⟩, fun t ht => ht.written _ _⟩
    · simp [FileSystem.load, hs.dirty hd, RecordMap.ofRecords_values hs.keyed]
    · rintro _ ⟨⟩
      exact Nat.lt_succ_self _

end Calls

/-! ### Calls that take turns -/

section Run

variable {entityName : List Char} {computeTrustId : List Char → List Char → List Char}
  {R : RecordMap} {owner : Nat}

/-- `runAlone` after a call that ran alone on its store. -/
theorem System.runAlone_cons (sys : System) {s s' : JsonTrustStore} {fs' : FileSystem}
    {c : TrustStoreCall} {r : Except StoreError TrustStoreReply} (cs : List (Nat × TrustStoreCall))
    (hs : sys.stores[owner]? = some s)
    (hrun : (c.prog entityName computeTrustId).run ⟨s, sys.fs⟩ [] = ⟨r, ⟨s', fs'⟩, []⟩) :
    System.runAlone entityName computeTrustId ((owner, c) :: cs) sys =
      System.runAlone entityName computeTrustId cs
        ⟨sys.stores.set owner s', fs', sys.tasks ++ [⟨owner, .done r⟩]⟩ := by
  simp [System.runAlone, hs, hrun]

/-- Calls that take turns leave as many stores as there were. -/
theorem System.length_runAlone (calls : List (Nat × TrustStoreCall)) (sys : System) :
    (System.runAlone entityName computeTrustId calls sys).stores.length = sys.stores.length := by
  induction calls generalizing sys with
  | nil => rfl
  | cons p cs ih =>
    cases hs : sys.stores[p.1]? <;> simp [System.runAlone, hs, ih]

/-- New stores over an unlocked file that loads to `R`, with a modification time the disk
gave before the clock's, are synced with it. -/
theorem SharedSynced.fresh {fs : FileSystem} (hload : fs.load entityName = some R)
    (hunlocked : fs.locked = false) (hfile : ∀ f ∈ fs.file, f.mtime < fs.clock) (n : Nat) :
    SharedSynced entityName R (System.fresh n fs).stores (System.fresh n fs).fs := by
  obtain ⟨f, records, hf, -, hR⟩ := FileSystem.load_eq_some.mp hload
  have hfresh : Synced R fs .fresh := ⟨rfl, Nat.zero_lt_of_lt (hfile f hf), fun _ _ _ => .inr rfl⟩
  exact ⟨⟨hR ▸ RecordMap.keyedById_ofRecords records, hload, hunlocked, hfile⟩,
    fun _ hs => List.eq_of_mem_replicate hs ▸ hfresh⟩

/-- The next `getAll()` of a store synced with a file that loads to `R`, run with no other
event in between, returns the records of `R`. -/
theorem SharedSynced.getAll_next {sys : System} (h : SharedSynced entityName R sys.stores sys.fs)
    (hlt : owner < sys.stores.length) :
    ∃ es sys', (∀ e ∈ es, e.ownedFrom owner sys.tasks.length) ∧
      System.run entityName computeTrustId es sys = some sys' ∧
      sys'.tasks = sys.tasks ++ [⟨owner, .done (.ok (.records R.values))⟩] := by
  obtain ⟨f, -, hf, -, -⟩ := FileSystem.load_eq_some.mp h.load
  obtain ⟨es, hes, hrun⟩ := System.run_calls_alone entityName computeTrustId [.getAll none] sys
    (List.getElem?_eq_getElem hlt)
  refine ⟨es, _, hes, hrun, ?_⟩
  simp [runCalls, TrustStoreCall.prog, Except.map, TrustMap.recordsFor,
    getAll_run_of_synced (h.stores _ (List.getElem_mem hlt)) h.load hf]

/-- A turn of a call that changes no record: it returns what the trust map returns, and
the stores stay synced with the file. -/
theorem runAlone_keep (sys : System) (h : SharedSynced entityName R sys.stores sys.fs)
    (hlt : owner < sys.stores.length) {c : TrustStoreCall} (hc : c.changesRecords = false)
    (cs : List (Nat × TrustStoreCall)) :
    ∃ sys', System.runAlone entityName computeTrustId ((owner, c) :: cs) sys =
        System.runAlone entityName computeTrustId cs sys' ∧
      sys'.tasks.map (·.prog) =
        sys.tasks.map (·.prog) ++ [.done (TrustMap.call computeTrustId c R).1] ∧
      SharedSynced entityName (TrustMap.call computeTrustId c R).2 sys'.stores sys'.fs ∧
      sys'.stores.length = sys.stores.length := by
  obtain ⟨s', hrun, hR, hs'⟩ :=
    keep_run_of_synced computeTrustId h.toSharedFile (h.stores _ (List.getElem_mem hlt)) hc
  refine ⟨_, System.runAlone_cons sys cs (List.getElem?_eq_getElem hlt) hrun, by simp, ?_,
    List.length_set ..⟩
  rw [hR]
  exact { h with stores := forall_mem_set_of h.stores hs' }

/-- A turn of a change followed at once by `flushNow()` on the same store: both return what
the trust map returns, and the stores are synced with the file, which loads to the changed
map. -/
theorem runAlone_changed_flushed (sys : System)
    (h : SharedSynced entityName R sys.stores sys.fs) (hlt : owner < sys.stores.length)
    {c : TrustStoreCall} (hc : ∀ s, sys.stores[owner]? = some s →
      ∃ s₁, (c.prog entityName computeTrustId).run ⟨s, sys.fs⟩ [] =
        ⟨(TrustMap.call computeTrustId c R).1, ⟨s₁, sys.fs⟩, []⟩ ∧
        Changed R (TrustMap.call computeTrustId c R).2 sys.fs s₁)
    (cs : List (Nat × TrustStoreCall)) :
    ∃ sys', System.runAlone entityName computeTrustId ((owner, c) :: (owner, .flushNow) :: cs) sys =
        System.runAlone entityName computeTrustId cs sys' ∧
      sys'.tasks.map (·.prog) = sys.tasks.map (·.prog) ++
        [.done (TrustMap.call computeTrustId c R).1, .done (.ok .unit)] ∧
      SharedSynced entityName (TrustMap.call computeTrustId c R).2 sys'.stores sys'.fs ∧
      sys'.stores.length = sys.stores.length := by
  obtain ⟨s₁, hrun₁, hchanged⟩ := hc _ (List.getElem?_eq_getElem hlt)
  obtain ⟨s₂, fs', hrun₂, hfile, hs₂, hwritten⟩ :=
    flushNow_run_of_changed computeTrustId h.toSharedFile hchanged
  refine ⟨⟨sys.stores.set owner s₂, fs', sys.tasks ++
      [⟨owner, .done (TrustMap.call computeTrustId c R).1⟩, ⟨owner, .done (.ok .unit)⟩]⟩, ?_,
    by simp, ⟨hfile, forall_mem_set_of (fun t ht => hwritten t (h.stores t ht)) hs₂⟩,
    List.length_set ..⟩
  rw [System.runAlone_cons sys _ (List.getElem?_eq_getElem hlt) hrun₁,
    System.runAlone_cons ⟨_, _, _⟩ _ (List.getElem?_set_self hlt) hrun₂, List.set_set,
    List.append_assoc]
  rfl

/-- A turn of `getById`, `delete` and `flushNow()` on one store. The read reloads the file if
the store has not seen its time, so the store deletes from the file's map. -/
theorem runAlone_read_delete_flushed (sys : System)
    (h : SharedSynced entityName R sys.stores sys.fs) (hlt : owner < sys.stores.length)
    (computedId' computedId : List Char) (cs : List (Nat × TrustStoreCall)) :
    ∃ sys', System.runAlone entityName computeTrustId ((owner, .getById computedId') ::
          (owner, .delete computedId) :: (owner, .flushNow) :: cs) sys =
        System.runAlone entityName computeTrustId cs sys' ∧
      sys'.tasks.map (·.prog) = sys.tasks.map (·.prog) ++
        [.done (TrustMap.call computeTrustId (.getById computedId') R).1,
          .done (TrustMap.call computeTrustId (.delete computedId) R).1, .done (.ok .unit)] ∧
      SharedSynced entityName (TrustMap.call computeTrustId (.delete computedId) R).2
        sys'.stores sys'.fs ∧
      sys'.stores.length = sys.stores.length := by
  obtain ⟨f, -, hf, -, -⟩ := FileSystem.load_eq_some.mp h.load
  have hs := h.stores _ (List.getElem_mem hlt)
  have hreloaded := hs.reloaded (h.file f hf)
  have hread : ((TrustStoreCall.getById computedId').prog entityName computeTrustId).run
      ⟨sys.stores[owner], sys.fs⟩ [] = ⟨.ok (.found (R.get computedId')),
        ⟨{ sys.stores[owner] with recordMap := R, lastChangedMtime := f.mtime }, sys.fs⟩, []⟩ := by
    simp [TrustStoreCall.prog, getById_run_of_synced hs h.load hf, Except.map]
  obtain ⟨sys', hrun, htasks, h', hlen⟩ := runAlone_changed_flushed
    ⟨sys.stores.set owner { sys.stores[owner] with recordMap := R, lastChangedMtime := f.mtime },
      sys.fs, sys.tasks ++ [⟨owner, .done (.ok (.found (R.get computedId')))⟩]⟩
    ⟨h.toSharedFile, forall_mem_set_of h.stores hreloaded⟩ (by simpa using hlt)
    (fun _ hs' => Option.some.inj ((List.getElem?_set_self hlt).symm.trans hs') ▸
      delete_run_of_current computeTrustId h.toSharedFile hreloaded rfl computedId) cs
  refine ⟨sys', ?_, by simp [htasks, TrustMap.call], h', by simpa using hlen⟩
  rw [System.runAlone_cons sys _ (List.getElem?_eq_getElem hlt) hread, hrun]

/-- Calls that take turns, each `create` and `update` flushed at once, return what the trust
map returns, and keep every store synced with a file that loads to the trust map. -/
theorem SharedSynced.runAlone {calls : List (Nat × TrustStoreCall)} (hcalls : Flushed calls) :
    ∀ {R : RecordMap} (sys : System), SharedSynced entityName R sys.stores sys.fs →
      (∀ p ∈ calls, p.1 < sys.stores.length) →
      (System.runAlone entityName computeTrustId calls sys).tasks.map (·.prog) =
          sys.tasks.map (·.prog) ++
            (TrustMap.run computeTrustId (calls.map Prod.snd) R).1.map .done ∧
        SharedSynced entityName (TrustMap.run computeTrustId (calls.map Prod.snd) R).2
          (System.runAlone entityName computeTrustId calls sys).stores
          (System.runAlone entityName computeTrustId calls sys).fs := by
  induction hcalls with
  | nil => exact fun _ h _ => ⟨by simp [System.runAlone, TrustMap.run], h⟩
  | @keep owner c cs hc _ ih =>
    intro R sys h howners
    obtain ⟨sys', hrun, htasks, h', hlen⟩ :=
      runAlone_keep sys h (howners _ (List.mem_cons_self _ _)) hc cs
    obtain ⟨ih₁, ih₂⟩ := ih sys' h' fun p hp => hlen ▸ howners p (.tail _ hp)
    rw [hrun]
    exact ⟨by simp [TrustMap.run, ih₁, htasks], ih₂⟩
  | @create owner record computedId cs _ ih =>
    intro R sys h howners
    obtain ⟨sys', hrun, htasks, h', hlen⟩ := runAlone_changed_flushed sys h
      (howners _ (List.mem_cons_self _ _))
      (fun _ hs => create_run_of_synced _ h.toSharedFile (h.stores _ (List.getElem?_mem hs)) _ _) cs
    obtain ⟨ih₁, ih₂⟩ := ih sys' h' fun p hp => hlen ▸ howners p (.tail _ (.tail _ hp))
    rw [hrun]
    exact ⟨by simp [TrustMap.run, ih₁, htasks, TrustMap.call], ih₂⟩
  | @update owner computedId patch cs hpatch _ ih =>
    intro R sys h howners
    obtain ⟨sys', hrun, htasks, h', hlen⟩ := runAlone_changed_flushed sys h
      (howners _ (List.mem_cons_self _ _))
      (fun _ hs => update_run_of_synced _ h.toSharedFile (h.stores _ (List.getElem?_mem hs)) hpatch)
      cs
    obtain ⟨ih₁, ih₂⟩ := ih sys' h' fun p hp => hlen ▸ howners p (.tail _ (.tail _ hp))
    rw [hrun]
    exact ⟨by simp [TrustMap.run, ih₁, htasks, TrustMap.call], ih₂⟩
  | @delete owner computedId' computedId cs _ ih =>
    intro R sys h howners
    obtain ⟨sys', hrun, htasks, h', hlen⟩ := runAlone_read_delete_flushed sys h
      (howners _ (List.mem_cons_self _ _)) computedId' computedId cs
    obtain ⟨ih₁, ih₂⟩ := ih sys' h' fun p hp => hlen ▸ howners p (.tail _ (.tail _ (.tail _ hp)))
    rw [hrun]
    exact ⟨by simp [TrustMap.run, ih₁, htasks, TrustMap.call], ih₂⟩

end Run

/-! ### No record is lost -/

/-- A call that adds a record or changes none: a `create` of a record without an id, or a
call that changes no record. -/
def TrustStoreCall.onlyAdds : TrustStoreCall → Bool
  | .create record _ => record.id.isNone
  | c => !c.changesRecords

/-- The records that the `create` calls of a list build, in order. -/
def TrustMap.created (computeTrustId : List Char → List Char → List Char) :
    List TrustStoreCall → List BTPTrustRecord
  | [] => []
  | .create record computedId :: cs =>
    record.withId (computedId.getD (computeTrustId record.senderId record.receiverId)) ::
      TrustMap.created computeTrustId cs
  | _ :: cs => TrustMap.created computeTrustId cs

/-- Calls that only add records, under ids distinct from each other and from those of a
keyed map, leave the map's records followed by the created ones. -/
theorem TrustMap.run_values_of_onlyAdds {computeTrustId : List Char → List Char → List Char} :
    ∀ {cs : List TrustStoreCall} {R : RecordMap}, R.KeyedById → (∀ c ∈ cs, c.onlyAdds = true) →
      ((R.values ++ TrustMap.created computeTrustId cs).map BTPTrustRecord.id).Nodup →
      (TrustMap.run computeTrustId cs R).2.values = R.values ++ TrustMap.created computeTrustId cs
  | [], _, _, _, _ => by simp [TrustMap.run, TrustMap.created]
  | c :: cs, R, hR, hadds, hnodup => by
    obtain ⟨hc, hrest⟩ := List.forall_mem_cons.mp hadds
    cases c
    case create record computedId =>
      have hid : record.id = none := by simpa [TrustStoreCall.onlyAdds] using hc
      have hnodup' := hnodup
      simp only [TrustMap.created, List.map_append, List.map_cons, List.nodup_append,
        List.disjoint_cons_right, TrustRecordInput.withId_id] at hnodup'
      have hfresh := hnodup'.2.2.1
      simp only [TrustMap.run, TrustMap.call, hid, hR.get_eq_none hfresh, Option.isSome_none,
        Bool.false_eq_true, if_false]
      rw [TrustMap.run_values_of_onlyAdds (hR.set (record.withId_id _)) hrest
        (by simpa [hR.values_set hfresh, TrustMap.created] using hnodup), hR.values_set hfresh]
      simp [TrustMap.created]
    case update | delete => simp [TrustStoreCall.onlyAdds, TrustStoreCall.changesRecords] at hc
    all_goals simpa [TrustMap.run, TrustMap.call, TrustMap.created] using
      TrustMap.run_values_of_onlyAdds hR hrest (by simpa [TrustMap.created] using hnodup)

/-- Any number of new store instances over one unlocked file that loads to `R₀` implement
the trust map from `R₀` when their calls take turns, every `create`, `update` and `delete`
is flushed at once on its store, and every `delete` follows a `getById` on its store. Such
calls are a schedule of the system; each returns what the trust map returns, and the file
ends loading to the map the calls leave. This rests on the disk giving every write a
modification time no store has seen, as `FileSystem.writeTmp` stamps the clock and advances
it, from a file whose time is before the clock's (`hfile`): a disk whose times repeat can
hide a write from `reloadIfChanged`. -/
theorem shared_stores_refine_trustMap (entityName : List Char)
    (computeTrustId : List Char → List Char → List Char) {fs : FileSystem} {R₀ : RecordMap}
    (hload : fs.load entityName = some R₀) (hunlocked : fs.locked = false)
    (hfile : ∀ f ∈ fs.file, f.mtime < fs.clock) (n : Nat) {calls : List (Nat × TrustStoreCall)}
    (hcalls : Flushed calls) (howners : ∀ p ∈ calls, p.1 < n) :
    (∃ es, System.run entityName computeTrustId es (System.fresh n fs) =
      some (System.runAlone entityName computeTrustId calls (System.fresh n fs))) ∧
    (System.runAlone entityName computeTrustId calls (System.fresh n fs)).tasks.map (·.prog) =
      (TrustMap.run computeTrustId (calls.map Prod.snd) R₀).1.map .done ∧
    (System.runAlone entityName computeTrustId calls (System.fresh n fs)).fs.load entityName =
      some (TrustMap.run computeTrustId (calls.map Prod.snd) R₀).2 := by
  obtain ⟨htasks, hend⟩ := SharedSynced.runAlone hcalls (System.fresh n fs)
    (SharedSynced.fresh hload hunlocked hfile n)
    fun p hp => (List.length_replicate n _).symm ▸ howners p hp
  exact ⟨System.run_runAlone .., by simpa [System.fresh] using htasks, hend.load⟩

/-- Two stores over a file with no record. Each creates a record and flushes it; the first
updates alice's record and flushes; the second, whose map still holds the old record, reads
carol's record and deletes it and flushes; the first lists the records. -/
theorem shared_stores_refine_trustMap_two_stores :
    let calls : List (Nat × TrustStoreCall) :=
      [(0, .create ⟨none, "alice$a.example".toList, "bob$b.example".toList, .requested,
          "2025-01-01".toList, none, none, none⟩ none),
        (0, .flushNow),
        (1, .create ⟨none, "carol$c.example".toList, "bob$b.example".toList, .requested,
          "2025-01-02".toList, none, none, none⟩ none),
        (1, .flushNow),
        (0, .update "alice$a.example→bob$b.example".toList { status := some .accepted }),
        (0, .flushNow),
        (1, .getById "carol$c.example→bob$b.example".toList),
        (1, .delete "carol$c.example→bob$b.example".toList),
        (1, .flushNow),
        (0, .getAll none)]
    let computeTrustId := fun senderId receiverId : List Char => senderId ++ '→' :: receiverId
    let fs : FileSystem := ⟨some ⟨.array [], 1⟩, none, false, 2⟩
    fs.load [] = some RecordMap.empty ∧ fs.locked = false ∧ (∀ f ∈ fs.file, f.mtime < fs.clock) ∧
      Flushed calls ∧ (∀ p ∈ calls, p.1 < 2) ∧
      (TrustMap.run computeTrustId (calls.map Prod.snd) RecordMap.empty).2.values.map
          (fun r => (r.senderId, r.status)) = [("alice$a.example".toList, .accepted)] ∧
      (∃ es, System.run [] computeTrustId es (System.fresh 2 fs) =
        some (System.runAlone [] computeTrustId calls (System.fresh 2 fs))) ∧
      (System.runAlone [] computeTrustId calls (System.fresh 2 fs)).tasks.map (·.prog) =
        (TrustMap.run computeTrustId (calls.map Prod.snd) RecordMap.empty).1.map .done ∧
      (System.runAlone [] computeTrustId calls (System.fresh 2 fs)).fs.load [] =
        some (TrustMap.run computeTrustId (calls.map Prod.snd) RecordMap.empty).2 := by
  intro calls computeTrustId fs
  have hload : fs.load [] = some RecordMap.empty := by decide
  have hfile : ∀ f ∈ fs.file, f.mtime < fs.clock := by decide
  have hcalls : Flushed calls :=
    .create (.create (.update (fun _ h => nomatch h) (.delete (.keep rfl .nil))))
  have howners : ∀ p ∈ calls, p.1 < 2 := by decide
  exact ⟨hload, rfl, hfile, hcalls, howners, by decide,
    shared_stores_refine_trustMap [] computeTrustId hload rfl hfile 2 hcalls howners⟩

/-- Stores over one file that loads to `R₀`, and a `.tmp` file that loads if there is one,
with no call in flight. Under every schedule of their calls, timers and signal handlers,
the file stays one that loads, and a clean store whose `flushAndReload()` and then
`getAll()` run with no other event in between gets exactly the records of the map the file
loads to. And no record is lost when new stores over an unlocked file take turns: when
every `create` gives a record without an id, under ids distinct from each other and from
the file's, is flushed at once on its store, and no other call changes a record, the file
ends holding its records followed by every created one, and the next `getAll()` of every
store returns exactly those. The second part rests on the disk giving every write a
modification time no store has seen (`FileSystem.writeTmp`), from a file whose time is
before the clock's. -/
theorem shared_file_loads_and_rereads (entityName : List Char)
    (computeTrustId : List Char → List Char → List Char) {fs : FileSystem} {R₀ : RecordMap}
    (hload : fs.load entityName = some R₀) (htmp : ∀ f ∈ fs.tmp, f.contents.Loads entityName) :
    (∀ (stores : List JsonTrustStore) (sys : System),
      System.Reachable entityName computeTrustId ⟨stores, fs, []⟩ sys →
      (∃ R, sys.fs.load entityName = some R) ∧
        ∀ owner s R, sys.stores[owner]? = some s → s.dirty = false →
          sys.fs.load entityName = some R →
          ∃ es sys', (∀ e ∈ es, e.ownedFrom owner sys.tasks.length) ∧
            System.run entityName computeTrustId es sys = some sys' ∧
            sys'.tasks = sys.tasks ++
              [⟨owner, .done (.ok .unit)⟩, ⟨owner, .done (.ok (.records R.values))⟩]) ∧
    (fs.locked = false → (∀ f ∈ fs.file, f.mtime < fs.clock) →
      ∀ (n : Nat) (calls : List (Nat × TrustStoreCall)), Flushed calls →
        (∀ p ∈ calls, p.1 < n) → (∀ c ∈ calls.map Prod.snd, c.onlyAdds = true) →
        ((R₀.values ++ TrustMap.created computeTrustId (calls.map Prod.snd)).map
          BTPTrustRecord.id).Nodup →
        (∃ es, System.run entityName computeTrustId es (System.fresh n fs) =
          some (System.runAlone entityName computeTrustId calls (System.fresh n fs))) ∧
        ∃ R, (System.runAlone entityName computeTrustId calls (System.fresh n fs)).fs.load
            entityName = some R ∧
          R.values = R₀.values ++ TrustMap.created computeTrustId (calls.map Prod.snd) ∧
          ∀ owner < n, ∃ es sys', (∀ e ∈ es, e.ownedFrom owner
              (System.runAlone entityName computeTrustId calls (System.fresh n fs)).tasks.length) ∧
            System.run entityName computeTrustId es
              (System.runAlone entityName computeTrustId calls (System.fresh n fs)) = some sys' ∧
            sys'.tasks = (System.runAlone entityName computeTrustId calls
              (System.fresh n fs)).tasks ++ [⟨owner, .done (.ok (.records R.values))⟩]) := by
  obtain ⟨f, records, hf, hrecords, -⟩ := FileSystem.load_eq_some.mp hload
  refine ⟨fun stores sys hreach => file_loads_and_rereads entityName computeTrustId stores
      ⟨f, hf, by simp [TrustFile.Loads, hrecords]⟩ htmp hreach,
    fun hunlocked hfile n calls hcalls howners hadds hnodup => ?_⟩
  have hstart := SharedSynced.fresh hload hunlocked hfile n
  obtain ⟨-, hend⟩ := @SharedSynced.runAlone entityName computeTrustId calls hcalls R₀
    (System.fresh n fs) hstart fun p hp => (List.length_replicate n _).symm ▸ howners p hp
  exact ⟨System.run_runAlone .., _, hend.load,
    TrustMap.run_values_of_onlyAdds hstart.keyed hadds hnodup, fun owner hlt =>
      hend.getAll_next (by simpa [System.length_runAlone, System.fresh] using hlt)⟩

/-- Two new stores over a file with no record take turns: the first creates alice's record
and flushes it, the second lists the records, creates carol's and flushes it. The file ends
loading to both records, alice's first. -/
theorem shared_file_loads_and_rereads_two_stores :
    let computeTrustId := fun senderId receiverId : List Char => senderId ++ '→' :: receiverId
    let calls : List (Nat × TrustStoreCall) :=
      [(0, .create ⟨none, "alice$a.example".toList, "bob$b.example".toList, .accepted,
          "2025-01-01".toList, none, none, none⟩ none),
        (0, .flushNow),
        (1, .getAll none),
        (1, .create ⟨none, "carol$c.example".toList, "bob$b.example".toList, .accepted,
          "2025-01-01".toList, none, none, none⟩ none),
        (1, .flushNow)]
    let fs : FileSystem := ⟨some ⟨.array [], 1⟩, none, false, 2⟩
    fs.load [] = some RecordMap.empty ∧ (∀ f ∈ fs.tmp, f.contents.Loads []) ∧
      (∃ R, (System.runAlone [] computeTrustId calls (System.fresh 2 fs)).fs.load [] = some R) ∧
      fs.locked = false ∧ (∀ f ∈ fs.file, f.mtime < fs.clock) ∧ Flushed calls ∧
      (∀ p ∈ calls, p.1 < 2) ∧ (∀ c ∈ calls.map Prod.snd, c.onlyAdds = true) ∧
      ((RecordMap.empty.values ++ TrustMap.created computeTrustId (calls.map Prod.snd)).map
        BTPTrustRecord.id).Nodup ∧
      (TrustMap.created computeTrustId (calls.map Prod.snd)).map (·.senderId) =
        ["alice$a.example".toList, "carol$c.example".toList] ∧
      ∃ R, (System.runAlone [] computeTrustId calls (System.fresh 2 fs)).fs.load [] = some R ∧
        R.values = RecordMap.empty.values ++
          TrustMap.created computeTrustId (calls.map Prod.snd) := by
  intro computeTrustId calls fs
  have hload : fs.load [] = some RecordMap.empty := by decide
  have htmp : ∀ f ∈ fs.tmp, f.contents.Loads [] := nofun
  have hfile : ∀ f ∈ fs.file, f.mtime < fs.clock := by decide
  have hcalls : Flushed calls := .create (.keep rfl (.create .nil))
  have howners : ∀ p ∈ calls, p.1 < 2 := by decide
  have hadds : ∀ c ∈ calls.map Prod.snd, c.onlyAdds = true := by decide
  have hnodup : ((RecordMap.empty.values ++ TrustMap.created computeTrustId
      (calls.map Prod.snd)).map BTPTrustRecord.id).Nodup := by decide
  have hrun := System.run_runAlone [] computeTrustId calls (System.fresh 2 fs)
  obtain ⟨-, R, hR, hvalues, -⟩ := (shared_file_loads_and_rereads [] computeTrustId hload htmp).2
    rfl hfile 2 calls hcalls howners hadds hnodup
  exact ⟨hload, htmp, ((shared_file_loads_and_rereads [] computeTrustId hload htmp).1 _ _ hrun).1,
    rfl, hfile, hcalls, howners, hadds, hnodup, by decide, R, hR, hvalues⟩

/-- `delete` on a store that has not seen another store's write, with no read first. The
first store creates bob's record and flushes; the second creates alice's, after reloading
the file, and flushes. The first store, whose map is not empty, deletes bob's record from
its old map and flushes it over the file. The file then holds no record, and the second store's
`getAll()` reloads it and returns none, where the trust map still holds alice's record. -/
theorem delete_stale_loses_record :
    let calls : List (Nat × TrustStoreCall) :=
      [(0, .create ⟨none, "bob$b.example".toList, "carol$c.example".toList, .accepted,
          "2025-01-01".toList, none, none, none⟩ none),
        (0, .flushNow),
        (1, .create ⟨none, "alice$a.example".toList, "bob$b.example".toList, .accepted,
          "2025-01-01".toList, none, none, none⟩ none),
        (1, .flushNow),
        (0, .delete "bob$b.example→carol$c.example".toList),
        (0, .flushNow),
        (1, .getAll none)]
    let computeTrustId := fun senderId receiverId : List Char => senderId ++ '→' :: receiverId
    let sys₀ : System := ⟨[.fresh, .fresh], ⟨some ⟨.array [], 1⟩, none, false, 2⟩, []⟩
    (∃ es, System.run [] computeTrustId es sys₀ =
      some (System.runAlone [] computeTrustId calls sys₀)) ∧
    (System.runAlone [] computeTrustId calls sys₀).fs.load [] = some RecordMap.empty ∧
    (System.runAlone [] computeTrustId calls sys₀).tasks.getLast?.bind (·.prog.returned) =
      some (.records []) ∧
    (TrustMap.run computeTrustId (calls.map Prod.snd) RecordMap.empty).1.getLast?.bind
      Except.toOption ≠ some (.records []) :=
  ⟨System.run_runAlone .., by decide, by decide, by decide⟩

end Btps
