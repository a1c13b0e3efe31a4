import Btps.Trust.TrustIds

/-!
# The store implements a trust map

What a trust store is for: a map from ids to records, where `create` adds a record under
a fresh id, `update` merges a patch into a stored record, `delete` removes one, and the
reads return what the map holds; `TrustMap` states this. A `JsonTrustStore` used alone,
with calls awaited one at a time, the debounce timer and the signal handlers firing
between them, and a disk that never fails, refines that map: every call returns what the
map returns, and once `flushNow` has run, a new store over the same file starts from the
same map. The file may be missing at first: `init` creates it with no record, and the map
starts empty. Two things are outside the refinement. A patch that changes `id` is stored
under the old key and reloaded under the new one (`update_id_patch_lost_on_restart`). A
map emptied by `delete` counts as not loaded, so a read that comes before the empty map is
written reloads the old file and brings the record back (`delete_last_then_read_restores`);
the refinement asks for a write right after such a `delete`.

When the disk fails, the store does not keep its promise: `writeToFile` clears `dirty`
before it awaits the lock, so a failed write leaves a clean store over a stale file.
-/

namespace Btps

/-! ### The trust map -/

section TrustMap

variable (computeTrustId : List Char → List Char → List Char)

/-- The records of a `getAll`: all of them, or those of one receiver when it is given as
a non-empty string. -/
def TrustMap.recordsFor (receiverId : Option (List Char)) (all : List BTPTrustRecord) :
    List BTPTrustRecord :=
  match receiverId with
  | some r => if r.isEmpty then all else all.filter (·.receiverId == r)
  | none => all

/-- A call on the trust map: its reply and the map after it. `create` fails when the
record carries an id or the id is taken, `update` when the id is absent; a failed call
leaves the map. -/
def TrustMap.call : TrustStoreCall → RecordMap → Except StoreError TrustStoreReply × RecordMap
  | .getById computedId, R => (.ok (.found (R.get computedId)), R)
  | .create record computedId, R =>
    let id := computedId.getD (computeTrustId record.senderId record.receiverId)
    if record.id.isSome then (.error (.error createIdMessage), R)
    else if (R.get id).isSome then
      (.error (.error (alreadyExistsMessage record.senderId record.receiverId)), R)
    else (.ok (.record (record.withId id)), R.set id (record.withId id))
  | .update computedId patch, R =>
    match R.get computedId with
    | none => (.error (.error (noRecordMessage patch.senderId patch.receiverId)), R)
    | some r => (.ok (.record (r.merge patch)), R.set computedId (r.merge patch))
  | .delete computedId, R => (.ok .unit, (R.delete computedId).1)
  | .getAll receiverId, R => (.ok (.records (TrustMap.recordsFor receiverId R.values)), R)
  | _, R => (.ok .unit, R)

/-- Calls one after another on the trust map. -/
def TrustMap.run : List TrustStoreCall → RecordMap →
    List (Except StoreError TrustStoreReply) × RecordMap
  | [], R => ([], R)
  | c :: cs, R =>
    let rest := TrustMap.run cs (TrustMap.call computeTrustId c R).2
    ((TrustMap.call computeTrustId c R).1 :: rest.1, rest.2)

/-- The calls that write a dirty map before they read the file: `flushNow`,
`flushAndReload`, the debounce timer's write and the signal handler's. -/
def TrustStoreCall.writesFirst : TrustStoreCall → Bool
  | .flushNow | .flushAndReload | .debouncedWrite | .signalFlush => true
  | _ => false

/-- The calls the refinement covers on a map: a patch with no id but the one it
updates. -/
def TrustMap.Covered : TrustStoreCall → RecordMap → Prop
  | .update computedId patch, _ => ∀ id ∈ patch.id, id = computedId
  | _, _ => True

/-- Whether a call deletes the last record of the map. -/
def TrustMap.emptiesMap : TrustStoreCall → RecordMap → Bool
  | .delete computedId, R => (R.delete computedId).2 && (R.delete computedId).1 == RecordMap.empty
  | _, _ => false

/-- Every call of the run is covered on the map it meets, and a `delete` that removes the
last record is followed at once by a call that writes before it reads, if by any. -/
def TrustMap.Admissible : List TrustStoreCall → RecordMap → Prop
  | [], _ => True
  | c :: cs, R => TrustMap.Covered c R ∧
      (TrustMap.emptiesMap c R = true → ∀ c' ∈ cs.head?, c'.writesFirst = true) ∧
      TrustMap.Admissible cs (TrustMap.call computeTrustId c R).2

end TrustMap

/-! ### The refinement -/

/-- The store's map is empty and dirty: a `delete` removed its last record, and the write
of the empty map is pending. The store reads an empty map as one it has not loaded. -/
def World.Emptied (w : World) : Prop :=
  w.store.recordMap = RecordMap.empty ∧ w.store.dirty = true

/-- A clean store has not just been emptied by a `delete`. -/
theorem World.not_emptied_of_clean {w : World} (hd : w.store.dirty = false) : ¬w.Emptied :=
  fun he => nomatch hd.symm.trans he.2

/-- The store, alone over its file, stands for the trust map `R`. -/
structure Refines (entityName : List Char) (R : RecordMap) (w : World) : Prop where
  /-- The map keys every record by its id, as `init` will. -/
  keyed : R.KeyedById
  /-- The store holds `R`, or holds nothing and has not loaded it yet. -/
  map : w.store.recordMap = R ∨ w.store.recordMap = RecordMap.empty
  /-- An empty map that is dirty is one a `delete` emptied, so `R` is empty too. -/
  emptied : w.store.recordMap = RecordMap.empty → w.store.dirty = true → R = RecordMap.empty
  /-- A clean store's file loads to `R`, or is still missing while `R` is empty. -/
  persisted : w.store.dirty = false →
    w.fs.load entityName = some R ∨ (w.fs.file = none ∧ R = RecordMap.empty)
  /-- While the file is missing, the store has changed nothing. -/
  missing : w.fs.file = none → w.store.dirty = false
  /-- No one holds the lock. -/
  unlocked : w.fs.locked = false

section Refinement

variable {entityName : List Char} {R : RecordMap} {w : World}

open Prog

/-- A new store over a file that loads, or over no file while the map is empty, stands
for the map. -/
theorem Refines.fresh {fs : FileSystem}
    (hinit : fs.load entityName = some R ∨ (fs.file = none ∧ R = RecordMap.empty))
    (hunlocked : fs.locked = false) : Refines entityName R ⟨.fresh, fs⟩ := by
  refine ⟨?_, Or.inr rfl, (fun _ hd => nomatch hd), fun _ => hinit, fun _ => rfl, hunlocked⟩
  rcases hinit with hload | ⟨-, rfl⟩
  · obtain ⟨f, records, -, -, hR⟩ := FileSystem.load_eq_some.mp hload
    exact hR ▸ RecordMap.keyedById_ofRecords records
  · exact RecordMap.keyedById_empty

/-- A dirty store holds the map. -/
theorem Refines.map_of_dirty (h : Refines entityName R w) (hd : w.store.dirty = true) :
    w.store.recordMap = R :=
  h.map.elim id fun he => he.trans (h.emptied he hd).symm

/-- A store with records has a file. -/
theorem Refines.file_isSome (h : Refines entityName R w)
    (hne : w.store.recordMap ≠ RecordMap.empty) : w.fs.file.isSome := by
  cases hf : w.fs.file with
  | some f => rfl
  | none =>
    rcases h.persisted (h.missing hf) with hload | ⟨-, rfl⟩
    · simp [FileSystem.load, hf] at hload
    · exact absurd (h.map.elim id id) hne

/-- Clearing a clean store's map keeps the refinement. -/
theorem Refines.clear (h : Refines entityName R w) (hclean : w.store.dirty = false) :
    Refines entityName R { w with store := { w.store with recordMap := RecordMap.empty } } :=
  ⟨h.keyed, Or.inr rfl, (fun _ hd => nomatch hclean.symm.trans hd), h.persisted, h.missing,
    h.unlocked⟩

/-- Setting the time the store saw keeps the refinement. -/
theorem Refines.setLastChangedMtime (h : Refines entityName R w) (mtime : Nat) :
    Refines entityName R { w with store := { w.store with lastChangedMtime := mtime } } :=
  ⟨h.keyed, h.map, h.emptied, h.persisted, h.missing, h.unlocked⟩

/-- Arming or disarming the debounce timer keeps the refinement. -/
theorem Refines.setPending (h : Refines entityName R w) (pending : Bool) :
    Refines entityName R { w with store := { w.store with writePending := pending } } :=
  ⟨h.keyed, h.map, h.emptied, h.persisted, h.missing, h.unlocked⟩

/-- The store after `create` or `update` has set a record of the loaded map. -/
theorem Refines.set (h : Refines entityName R w) (hm : w.store.recordMap = R)
    (hf : w.fs.file.isSome) {key : List Char} {value : BTPTrustRecord} (hid : value.id = key) :
    Refines entityName (R.set key value) { w with
      store := { w.store with recordMap := w.store.recordMap.set key value, dirty := true,
                              writePending := true } } :=
  ⟨h.keyed.set hid, Or.inl (by rw [hm]), fun he => absurd he (RecordMap.set_ne_empty _ _ _),
    (fun hd => nomatch hd), fun hn => absurd hf (by rw [show w.fs.file = none from hn]; decide),
    h.unlocked⟩

/-- A write persists a dirty store, which holds `R`, and leaves it clean. -/
theorem writeToFile_run (h : Refines entityName R w) :
    ∃ w', (writeToFile entityName).run w [] = ⟨.ok (), w', []⟩ ∧ Refines entityName R w' ∧
      w'.store.recordMap = w.store.recordMap ∧ w'.store.dirty = false := by
  cases hd : w.store.dirty
  · exact ⟨w, by simp [writeToFile, run_bind, hd], h, rfl, hd⟩
  · have hm := h.map_of_dirty hd
    simp [writeToFile, run_bind, run_tryFinally, hd, IoRequest.respond, IoRequest.perform,
      h.unlocked]
    exact ⟨h.keyed, Or.inl hm, (fun _ hd => nomatch hd), fun _ => .inl (by
      simp [FileSystem.load, hm, RecordMap.ofRecords_values h.keyed]), (fun hn => nomatch hn),
      rfl⟩

/-- `init` over a file that loads to `R` sets the map to `R`. -/
theorem init_run_of_load (hload : w.fs.load entityName = some R) :
    (init entityName).run w [] =
      ⟨.ok (), { w with store := { w.store with recordMap := R } }, []⟩ := by
  obtain ⟨f, records, hf, hsel, hR⟩ := FileSystem.load_eq_some.mp hload
  have hmal : f.contents ≠ .malformed := by rintro hm; simp [hm, TrustFile.select] at hsel
  simp [init, run_bind, hf, IoRequest.respond, IoRequest.perform, hmal, hsel, hR]

/-- `init` over a missing file creates it with no record and sets the map to the empty
one. -/
theorem init_run_of_missing (hmissing : w.fs.file = none) :
    (init entityName).run w [] =
      ⟨.ok (), ⟨{ w.store with recordMap := RecordMap.empty },
        w.fs.writeFile (.ofRecords entityName [])⟩, []⟩ := by
  simp [init, run_bind, hmissing, IoRequest.respond, IoRequest.perform, RecordMap.ofRecords]

/-- `init` on a clean store loads `R`, creating the file when it is missing. -/
theorem init_run (h : Refines entityName R w) (hclean : w.store.dirty = false) :
    ∃ w', (init entityName).run w [] = ⟨.ok (), w', []⟩ ∧ Refines entityName R w' ∧
      w'.store.recordMap = R ∧ w'.store.dirty = false ∧ w'.fs.file.isSome := by
  rcases h.persisted hclean with hload | ⟨hmissing, rfl⟩
  · have hf : w.fs.file.isSome := by
      obtain ⟨f, -, hf, -⟩ := FileSystem.load_eq_some.mp hload
      simp [hf]
    exact ⟨_, init_run_of_load hload, ⟨h.keyed, Or.inl rfl,
      (fun _ hd => nomatch hclean.symm.trans hd), fun _ => .inl hload, h.missing, h.unlocked⟩,
      rfl, hclean, hf⟩
  · refine ⟨_, init_run_of_missing hmissing, ⟨h.keyed, Or.inl rfl, fun _ _ => rfl,
      fun _ => .inl ?_, (fun hn => nomatch hn), h.unlocked⟩, rfl, hclean, rfl⟩
    simp [FileSystem.load, FileSystem.writeFile, RecordMap.ofRecords]

/-- `flushAndReload` writes a dirty store and loads `R` into a clean one. -/
theorem flushAndReload_run (h : Refines entityName R w) :
    ∃ w', (flushAndReload entityName).run w [] = ⟨.ok (), w', []⟩ ∧ Refines entityName R w' ∧
      w'.store.recordMap = R ∧ w'.store.dirty = false ∧ w'.fs.file.isSome := by
  obtain ⟨w₁, h₁, hR₁, -, hd₁⟩ := writeToFile_run h
  obtain ⟨w₂, h₂, hR₂, hm₂, hd₂, hf₂⟩ := init_run (hR₁.clear hd₁) hd₁
  exact ⟨w₂, by simp [flushAndReload, run_bind, h₁, h₂], hR₂, hm₂, hd₂, hf₂⟩

/-- `reloadIfChanged` on a store that holds `R` keeps it holding `R`, reloaded or not. -/
theorem reloadIfChanged_run (h : Refines entityName R w) (hm : w.store.recordMap = R)
    (hne : ¬w.Emptied) (hf : w.fs.file.isSome) :
    ∃ w', (reloadIfChanged entityName).run w [] = ⟨.ok (), w', []⟩ ∧ Refines entityName R w' ∧
      w'.store.recordMap = R ∧ ¬w'.Emptied ∧ w'.fs.file.isSome := by
  obtain ⟨f, hf⟩ := Option.isSome_iff_exists.mp hf
  by_cases hL : f.mtime = w.store.lastChangedMtime
  · exact ⟨w, by simp [reloadIfChanged, run_bind, hf, IoRequest.respond, IoRequest.perform, hL],
      h, hm, hne, by simp [hf]⟩
  · obtain ⟨w₁, h₁, hR₁, hm₁, hd₁, hf₁⟩ := flushAndReload_run h
    exact ⟨_, by simp [reloadIfChanged, run_bind, hf, IoRequest.respond, IoRequest.perform, hL, h₁],
      hR₁.setLastChangedMtime f.mtime, hm₁, World.not_emptied_of_clean hd₁, hf₁⟩

/-- `if (this.recordMap.size === 0) await this.init()` on a store that a `delete` has not
just emptied leaves the map equal to `R`, over a file that exists. -/
theorem loadIfEmpty_run (h : Refines entityName R w) (hne : ¬w.Emptied) :
    ∃ w', (if w.store.recordMap.size = 0 then await (init entityName) else .done (.ok ()) :
        Prog Unit).run w [] = ⟨.ok (), w', []⟩ ∧ Refines entityName R w' ∧
      w'.store.recordMap = R ∧ ¬w'.Emptied ∧ w'.fs.file.isSome := by
  by_cases hs : w.store.recordMap.size = 0
  · have hclean : w.store.dirty = false :=
      Bool.eq_false_iff.mpr fun hd => hne ⟨RecordMap.eq_empty_of_size hs, hd⟩
    obtain ⟨w₁, h₁, hR₁, hm₁, hd₁, hf₁⟩ := init_run h hclean
    exact ⟨w₁, by simp [hs, h₁], hR₁, hm₁, World.not_emptied_of_clean hd₁, hf₁⟩
  · have hne' : w.store.recordMap ≠ RecordMap.empty := fun he =>
      hs (by simp [he, RecordMap.size, RecordMap.empty])
    exact ⟨w, by simp [hs], h, h.map.resolve_right hne', hne, h.file_isSome hne'⟩

/-- `getById` on a store that a `delete` has not just emptied returns what `R` holds under
the id. -/
theorem getById_run (h : Refines entityName R w) (hne : ¬w.Emptied) (computedId : List Char) :
    ∃ w', (getById entityName computedId).run w [] = ⟨.ok (R.get computedId), w', []⟩ ∧
      Refines entityName R w' ∧ w'.store.recordMap = R ∧ ¬w'.Emptied ∧ w'.fs.file.isSome := by
  obtain ⟨w₁, h₁, hR₁, hm₁, hne₁, hf₁⟩ := loadIfEmpty_run h hne
  obtain ⟨w₂, h₂, hR₂, hm₂, hne₂, hf₂⟩ := reloadIfChanged_run hR₁ hm₁ hne₁ hf₁
  exact ⟨w₂, by simp [getById, run_bind, h₁, h₂, hm₂], hR₂, hm₂, hne₂, hf₂⟩

variable {computeTrustId : List Char → List Char → List Char}

/-- `create` returns and does what it does on the trust map. -/
theorem create_call_run (h : Refines entityName R w) (hne : ¬w.Emptied)
    (record : TrustRecordInput) (computedId : Option (List Char)) :
    ∃ w', ((TrustStoreCall.create record computedId).prog entityName computeTrustId).run w [] =
      ⟨(TrustMap.call computeTrustId (.create record computedId) R).1, w', []⟩ ∧
      Refines entityName (TrustMap.call computeTrustId (.create record computedId) R).2 w' ∧
      ¬w'.Emptied := by
  by_cases hid : record.id.isSome
  · exact ⟨w, by simp [TrustStoreCall.prog, create, run_bind, hid, TrustMap.call, Except.map],
      by simpa [TrustMap.call, hid] using h, hne⟩
  obtain ⟨w₁, h₁, hR₁, hm₁, hne₁, hf₁⟩ :=
    getById_run h hne (computedId.getD (computeTrustId record.senderId record.receiverId))
  by_cases hfound :
      (R.get (computedId.getD (computeTrustId record.senderId record.receiverId))).isSome
  · exact ⟨w₁, by simp [TrustStoreCall.prog, create, run_bind, hid, h₁, hfound, TrustMap.call,
      Except.map], by simpa [TrustMap.call, hid, hfound] using hR₁, hne₁⟩
  · have hset := hR₁.set hm₁ hf₁ (record.withId_id
      (computedId.getD (computeTrustId record.senderId record.receiverId)))
    refine ⟨_, ?_, by simpa [TrustMap.call, hid, hfound] using hset,
      fun he => RecordMap.set_ne_empty _ _ _ he.1⟩
    simp [TrustStoreCall.prog, create, run_bind, hid, h₁, hfound, TrustMap.call, writeDebounced,
      Except.map]

/-- `update` with a patch that keeps the id returns and does what it does on the trust
map. -/
theorem update_call_run (h : Refines entityName R w) (hne : ¬w.Emptied) {computedId : List Char}
    {patch : TrustRecordPatch} (hpatch : ∀ id ∈ patch.id, id = computedId) :
    ∃ w', ((TrustStoreCall.update computedId patch).prog entityName computeTrustId).run w [] =
      ⟨(TrustMap.call computeTrustId (.update computedId patch) R).1, w', []⟩ ∧
      Refines entityName (TrustMap.call computeTrustId (.update computedId patch) R).2 w' ∧
      ¬w'.Emptied := by
  obtain ⟨w₁, h₁, hR₁, hm₁, hne₁, hf₁⟩ := getById_run h hne computedId
  cases hget : R.get computedId with
  | none =>
    exact ⟨w₁, by simp [TrustStoreCall.prog, update, run_bind, h₁, hget, TrustMap.call, Except.map],
      by simpa [TrustMap.call, hget] using hR₁, hne₁⟩
  | some r =>
    have hset := hR₁.set hm₁ hf₁ (h.keyed.merge_id hget hpatch)
    refine ⟨_, ?_, by simpa [TrustMap.call, hget] using hset,
      fun he => RecordMap.set_ne_empty _ _ _ he.1⟩
    simp [TrustStoreCall.prog, update, run_bind, h₁, hget, TrustMap.call, writeDebounced, Except.map]

/-- `delete` returns and does what it does on the trust map. When it empties the map, the
store is left with an empty dirty map and the debounced write armed. -/
theorem delete_call_run (h : Refines entityName R w) (hne : ¬w.Emptied) (computedId : List Char) :
    ∃ w', ((TrustStoreCall.delete computedId).prog entityName computeTrustId).run w [] =
      ⟨(TrustMap.call computeTrustId (.delete computedId) R).1, w', []⟩ ∧
      Refines entityName (TrustMap.call computeTrustId (.delete computedId) R).2 w' ∧
      (w'.Emptied → TrustMap.emptiesMap (.delete computedId) R = true ∧
        w'.store.writePending = true) := by
  obtain ⟨w₁, h₁, hR₁, hm₁, hne₁, hf₁⟩ := loadIfEmpty_run h hne
  cases hdel : (R.delete computedId).2
  · have hsame := RecordMap.delete_of_not_deleted hdel
    refine ⟨{ w₁ with store := { w₁.store with recordMap := (R.delete computedId).1 } }, ?_, ?_,
      fun he => absurd ⟨hm₁.trans (hsame.symm.trans he.1), he.2⟩ hne₁⟩
    · simp [TrustStoreCall.prog, delete, run_bind, h₁, hm₁, hdel, TrustMap.call, Except.map]
    · simp only [TrustMap.call, hsame]
      exact ⟨hR₁.keyed, Or.inl rfl, fun he _ => he, hR₁.persisted, hR₁.missing, hR₁.unlocked⟩
  · refine ⟨{ w₁ with store := { w₁.store with recordMap := (R.delete computedId).1, dirty := true,
                                               writePending := true } }, ?_, ?_, ?_⟩
    · simp [TrustStoreCall.prog, delete, run_bind, h₁, hm₁, hdel, TrustMap.call, writeDebounced,
        Except.map]
    · exact ⟨hR₁.keyed.delete computedId, Or.inl rfl, fun he _ => he, (fun hd => nomatch hd),
        fun hn => absurd hf₁ (by rw [show w₁.fs.file = none from hn]; decide), hR₁.unlocked⟩
    · exact fun he => ⟨by simp [TrustMap.emptiesMap, hdel,
        show (R.delete computedId).1 = RecordMap.empty from he.1], rfl⟩

/-- `getAll` returns the records of the trust map. -/
theorem getAll_call_run (h : Refines entityName R w) (hne : ¬w.Emptied)
    (receiverId : Option (List Char)) :
    ∃ w', ((TrustStoreCall.getAll receiverId).prog entityName computeTrustId).run w [] =
      ⟨(TrustMap.call computeTrustId (.getAll receiverId) R).1, w', []⟩ ∧
      Refines entityName (TrustMap.call computeTrustId (.getAll receiverId) R).2 w' ∧
      ¬w'.Emptied := by
  obtain ⟨w₁, h₁, hR₁, hm₁, hne₁, hf₁⟩ := loadIfEmpty_run h hne
  obtain ⟨w₂, h₂, hR₂, hm₂, hne₂, -⟩ := reloadIfChanged_run hR₁ hm₁ hne₁ hf₁
  refine ⟨w₂, ?_, hR₂, hne₂⟩
  cases receiverId <;> simp [TrustStoreCall.prog, getAll, run_bind, h₁, h₂, hm₂, TrustMap.call,
    TrustMap.recordsFor, Except.map]

/-- Every covered call, run alone with no fault, returns what the trust map returns, and
the store after it stands for the trust map after it. A store that a `delete` has just
emptied must write before it reads: only a call that writes first may come next, and the
write it needs is armed. The store ends so only after a `delete` that empties the map. -/
theorem TrustStoreCall.prog_run (h : Refines entityName R w) {c : TrustStoreCall}
    (hc : TrustMap.Covered c R)
    (hnext : w.Emptied → c.writesFirst = true ∧ w.store.writePending = true) :
    ∃ w', (c.prog entityName computeTrustId).run w [] =
        ⟨(TrustMap.call computeTrustId c R).1, w', []⟩ ∧
      Refines entityName (TrustMap.call computeTrustId c R).2 w' ∧
      (w'.Emptied → TrustMap.emptiesMap c R = true ∧ w'.store.writePending = true) := by
  have hne : c.writesFirst = false → ¬w.Emptied := fun hw he => by simp [hw] at hnext; exact hnext he
  have hclean : ∀ {w' : World}, w'.store.dirty = false → w'.Emptied →
      TrustMap.emptiesMap c R = true ∧ w'.store.writePending = true :=
    fun hd he => absurd he (World.not_emptied_of_clean hd)
  cases c with
  | getById computedId =>
    obtain ⟨w₁, h₁, hR₁, -, hne₁, -⟩ := getById_run h (hne rfl) computedId
    exact ⟨w₁, by simp [prog, h₁, TrustMap.call, Except.map], hR₁, fun he => absurd he hne₁⟩
  | create record computedId =>
    obtain ⟨w₁, h₁, hR₁, hne₁⟩ := create_call_run h (hne rfl) record computedId
    exact ⟨w₁, h₁, hR₁, fun he => absurd he hne₁⟩
  | update computedId patch =>
    obtain ⟨w₁, h₁, hR₁, hne₁⟩ := update_call_run h (hne rfl) hc
    exact ⟨w₁, h₁, hR₁, fun he => absurd he hne₁⟩
  | delete computedId => exact delete_call_run h (hne rfl) computedId
  | getAll receiverId =>
    obtain ⟨w₁, h₁, hR₁, hne₁⟩ := getAll_call_run h (hne rfl) receiverId
    exact ⟨w₁, h₁, hR₁, fun he => absurd he hne₁⟩
  | flushNow =>
    obtain ⟨w₁, h₁, hR₁, -, hd₁⟩ := writeToFile_run h
    exact ⟨w₁, by simp [prog, Btps.flushNow, h₁, TrustMap.call, Except.map], hR₁, hclean hd₁⟩
  | flushAndReload =>
    obtain ⟨w₁, h₁, hR₁, -, hd₁, -⟩ := flushAndReload_run h
    exact ⟨w₁, by simp [prog, h₁, TrustMap.call, Except.map], hR₁, hclean hd₁⟩
  | debouncedWrite =>
    cases hp : w.store.writePending
    · exact ⟨w, by simp [prog, run_bind, hp, TrustMap.call], h, fun he =>
        absurd (hp.symm.trans (hnext he).2) (by decide)⟩
    · obtain ⟨w₁, h₁, hR₁, -, hd₁⟩ := writeToFile_run (h.setPending false)
      exact ⟨w₁, by simp [prog, run_bind, hp, Btps.debouncedWrite, h₁, TrustMap.call], hR₁,
        hclean hd₁⟩
  | signalFlush =>
    obtain ⟨w₁, h₁, hR₁, -, hd₁⟩ := writeToFile_run h
    exact ⟨w₁, by simp [prog, Btps.signalFlush, h₁, TrustMap.call, Except.map], hR₁, hclean hd₁⟩

/-- Admissible calls awaited one at a time, with no fault, return what the trust map
returns. -/
theorem runCalls_refines : ∀ (calls : List TrustStoreCall) (R : RecordMap) (w : World),
    Refines entityName R w →
    (w.Emptied → w.store.writePending = true ∧ ∀ c ∈ calls.head?, c.writesFirst = true) →
    TrustMap.Admissible computeTrustId calls R →
      (runCalls entityName computeTrustId calls w []).1 = (TrustMap.run computeTrustId calls R).1 ∧
        Refines entityName (TrustMap.run computeTrustId calls R).2
          (runCalls entityName computeTrustId calls w []).2
  | [], _, _, h, _, _ => ⟨rfl, h⟩
  | c :: cs, R, w, h, hnext, ⟨hc, hemptied, hcs⟩ => by
    obtain ⟨w₁, h₁, hR₁, hnext₁⟩ :=
      TrustStoreCall.prog_run h hc fun he => ⟨(hnext he).2 c rfl, (hnext he).1⟩
    obtain ⟨ih₁, ih₂⟩ := runCalls_refines cs _ w₁ hR₁
      (fun he => ⟨(hnext₁ he).2, hemptied (hnext₁ he).1⟩) hcs
    simp only [runCalls, TrustMap.run, h₁]
    exact ⟨by rw [ih₁], ih₂⟩

/-- Calls run after calls run from where those left the world. -/
theorem runCalls_append_nil (calls calls' : List TrustStoreCall) (w : World) :
    runCalls entityName computeTrustId (calls ++ calls') w [] =
      ((runCalls entityName computeTrustId calls w []).1 ++
        (runCalls entityName computeTrustId calls' (runCalls entityName computeTrustId calls w []).2 []).1,
        (runCalls entityName computeTrustId calls' (runCalls entityName computeTrustId calls w []).2 []).2) := by
  induction calls generalizing w with
  | nil => rfl
  | cons c cs ih => simp [runCalls, ih]

end Refinement

/-- A read right after the last record is deleted, with no write in between, which
`TrustMap.Admissible` leaves out. The store reads its empty map as not loaded and loads the
file the pending write has not yet replaced, so `getAll()` returns the deleted record,
where the trust map returns none; the pending write then puts the record back in the
file. -/
theorem delete_last_then_read_restores :
    let computeTrustId := fun senderId receiverId : List Char => senderId ++ '→' :: receiverId
    let calls : List TrustStoreCall :=
      [.create ⟨none, "alice$a.example".toList, "bob$b.example".toList, .requested,
          "2025-01-01".toList, none, none, none⟩ none,
        .flushNow, .delete "alice$a.example→bob$b.example".toList, .getAll none]
    let fs : FileSystem := ⟨some ⟨.array [], 1⟩, none, false, 2⟩
    let alice : BTPTrustRecord := ⟨"alice$a.example→bob$b.example".toList,
      "alice$a.example".toList, "bob$b.example".toList, .requested, "2025-01-01".toList, none,
      none, none⟩
    (runCalls [] computeTrustId calls ⟨.fresh, fs⟩ []).1.getLast?.bind Except.toOption =
        some (.records [alice]) ∧
      (TrustMap.run computeTrustId calls RecordMap.empty).1.getLast?.bind Except.toOption =
        some (.records []) ∧
      ((runCalls [] computeTrustId (calls ++ [.flushNow]) ⟨.fresh, fs⟩ []).2.fs.load []).map
        RecordMap.values = some [alice] := by
  decide

/-! ### A failing disk -/

/-- A write whose lock fails leaves the store clean while the file lacks the new record,
and the next `flushNow` writes nothing: after the run the store is clean, the file holds
no record, and the map holds the created one. -/
theorem flushNow_lock_failure :
    (fun w : World => (w.store.dirty, w.fs.file, w.store.recordMap.values.map (·.id)))
      (runCalls [] (fun senderId receiverId => senderId ++ '→' :: receiverId)
        [.create ⟨none, "alice$a.example".toList, "bob$b.example".toList, .accepted,
            "2025-01-01".toList, none, none, none⟩ none, .flushNow, .flushNow]
        ⟨.fresh, ⟨none, none, false, 1⟩⟩ [false, false, false, false, true]).2 =
      (false, some ⟨.array [], 1⟩, ["alice$a.example→bob$b.example".toList]) := by
  decide

end Btps
