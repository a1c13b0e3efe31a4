import Btps.Trust.JsonTrustStore

/-!
# Records stay under the ids of their parties

`create` stores a record under `computeTrustId(senderId, receiverId)` unless the caller
passes another id, `update` merges its patch into the stored record unchecked, and `init`
keys every record of the file by its `id` field. When every `create` takes the computed
id and no patch moves a record off the id of its parties, every record of the map and of
the file carries the id of its parties, and the map keeps it under that id. A `.tmp`
file reaches the file only by the rename that follows its own write, so a stale one is
never read. The invariant holds after every call of every run, whatever the disk
refuses, so no two records share their parties, and a write followed by a reload keys
every record as before.
-/

namespace Btps

section

variable (computeTrustId : List Char → List Char → List Char)

/-- The record carries the id of its parties. -/
def IdOfParties (r : BTPTrustRecord) : Prop := r.id = computeTrustId r.senderId r.receiverId

/-- Every record of a file carries the id of its parties. -/
def FileIdsOfParties (file : Option StoredFile) : Prop :=
  ∀ f ∈ file, ∀ r ∈ f.contents.allRecords, IdOfParties computeTrustId r

/-- Every record of the map sits under its id, which is the id of its parties. -/
structure MapIdsOfParties (m : RecordMap) : Prop where
  keyed : m.KeyedById
  parties : ∀ k r, (k, r) ∈ m.entries → IdOfParties computeTrustId r

/-- The invariant of the store and its file. -/
structure IdsOfParties (w : World) : Prop where
  map : MapIdsOfParties computeTrustId w.store.recordMap
  file : FileIdsOfParties computeTrustId w.fs.file

/-- A patch that keeps a record stored under `computedId`, the id of its parties, under
that id and with parties of that id. -/
def KeepsParties (computedId : List Char) (patch : TrustRecordPatch) : Prop :=
  ∀ r : BTPTrustRecord, r.id = computedId → IdOfParties computeTrustId r →
    (r.merge patch).id = computedId ∧ IdOfParties computeTrustId (r.merge patch)

/-- The calls of the invariant: a `create` with the computed id or none, an `update`
whose patch keeps parties and id. -/
def TrustStoreCall.KeepsPartyIds : TrustStoreCall → Prop
  | .create record computedId =>
    ∀ id ∈ computedId, id = computeTrustId record.senderId record.receiverId
  | .update computedId patch => KeepsParties computeTrustId computedId patch
  | _ => True

variable {computeTrustId}

/-! ### The map and the file -/

/-- The empty map holds no record, so none with another id. -/
theorem MapIdsOfParties.empty : MapIdsOfParties computeTrustId RecordMap.empty :=
  ⟨RecordMap.keyedById_empty, fun _ _ h => by simp [RecordMap.empty] at h⟩

/-- Setting a record of its parties' id under that id keeps the invariant. -/
theorem MapIdsOfParties.set {m : RecordMap} (hm : MapIdsOfParties computeTrustId m)
    {key : List Char} {value : BTPTrustRecord} (hid : value.id = key)
    (hvalue : IdOfParties computeTrustId value) : MapIdsOfParties computeTrustId (m.set key value) :=
  ⟨hm.keyed.set hid, fun k r h => (RecordMap.mem_set h).elim
    (fun ⟨_, hr⟩ => hr ▸ hvalue) (hm.parties k r)⟩

/-- Deleting keeps the invariant. -/
theorem MapIdsOfParties.delete {m : RecordMap} (hm : MapIdsOfParties computeTrustId m)
    (key : List Char) : MapIdsOfParties computeTrustId (m.delete key).1 :=
  ⟨hm.keyed.delete key, fun k r h => hm.parties k r (RecordMap.mem_delete h)⟩

/-- A map loaded from records of their parties' ids has the invariant. -/
theorem MapIdsOfParties.ofRecords {records : List BTPTrustRecord}
    (hrecords : ∀ r ∈ records, IdOfParties computeTrustId r) :
    MapIdsOfParties computeTrustId (RecordMap.ofRecords records) :=
  ⟨RecordMap.keyedById_ofRecords records, fun _ _ h => hrecords _ (RecordMap.mem_ofRecords h).2⟩

/-- A record that `get` finds sits under its own id, which is its parties'. -/
theorem MapIdsOfParties.get {m : RecordMap} (hm : MapIdsOfParties computeTrustId m)
    {key : List Char} {r : BTPTrustRecord} (h : m.get key = some r) :
    r.id = key ∧ IdOfParties computeTrustId r :=
  have hmem := RecordMap.get_eq_some_iff.mp h
  ⟨hm.keyed _ _ hmem, hm.parties _ _ hmem⟩

/-- Every value of such a map carries its parties' id. -/
theorem MapIdsOfParties.values {m : RecordMap} (hm : MapIdsOfParties computeTrustId m) :
    ∀ r ∈ m.values, IdOfParties computeTrustId r := by
  intro r hr
  obtain ⟨⟨k, r'⟩, hmem, rfl⟩ := List.mem_map.mp hr
  exact hm.parties k _ hmem

/-- Two entries whose records share their parties are one entry. -/
theorem MapIdsOfParties.eq_of_parties {m : RecordMap} (hm : MapIdsOfParties computeTrustId m)
    {k₁ k₂ : List Char} {r₁ r₂ : BTPTrustRecord} (h₁ : (k₁, r₁) ∈ m.entries)
    (h₂ : (k₂, r₂) ∈ m.entries) (hsender : r₁.senderId = r₂.senderId)
    (hreceiver : r₁.receiverId = r₂.receiverId) : k₁ = k₂ ∧ r₁ = r₂ := by
  have hk : k₁ = k₂ := by
    rw [← hm.keyed _ _ h₁, hm.parties _ _ h₁, hsender, hreceiver, ← hm.parties _ _ h₂,
      hm.keyed _ _ h₂]
  subst hk
  exact ⟨rfl, Option.some.inj ((RecordMap.get_eq_some_iff.mpr h₁).symm.trans
    (RecordMap.get_eq_some_iff.mpr h₂))⟩

/-- A patch that sets neither the id nor the parties keeps them. -/
theorem keepsParties_of_keys {computedId : List Char} {patch : TrustRecordPatch}
    (hid : patch.id = none) (hsender : patch.senderId = none) (hreceiver : patch.receiverId = none) :
    KeepsParties computeTrustId computedId patch := by
  intro r hr hparties
  obtain ⟨h₁, h₂, h₃⟩ := r.merge_keys hid hsender hreceiver
  exact ⟨h₁.trans hr, by rw [IdOfParties, h₁, h₂, h₃]; exact hparties⟩

/-- A created record carries its parties' id when the given id, if any, is theirs. -/
theorem idOfParties_withId {record : TrustRecordInput} {computedId : Option (List Char)}
    (hid : ∀ id ∈ computedId, id = computeTrustId record.senderId record.receiverId) :
    IdOfParties computeTrustId
      (record.withId (computedId.getD (computeTrustId record.senderId record.receiverId))) := by
  cases computedId with
  | none => rfl
  | some id => exact hid id rfl

/-- A request that writes only records with ids of their parties, and renames only such
a `.tmp` file, keeps the invariant. -/
theorem IdsOfParties.respond {w : World} (hw : IdsOfParties computeTrustId w) {req : IoRequest β}
    (hreq : ∀ c ∈ req.written, ∀ r ∈ c.allRecords, IdOfParties computeTrustId r)
    (htmp : req.renames → FileIdsOfParties computeTrustId w.fs.tmp) (fault : Bool) :
    IdsOfParties computeTrustId { w with fs := (req.respond fault w.fs).2 } := by
  refine ⟨hw.map, fun f hf => ?_⟩
  rcases IoRequest.mem_respond_file hf with h | ⟨hr, h⟩ | h
  exacts [hw.file f h, htmp hr f h, hreq _ h]

section Steps

variable {P : World → Prop}

open Prog

/-- A request that writes only records with ids of their parties, and renames only such
a `.tmp` file, keeps the invariant. -/
theorem request_ids {req : IoRequest β}
    (hreq : ∀ c ∈ req.written, ∀ r ∈ c.allRecords, IdOfParties computeTrustId r)
    (htmp : ∀ w, P w → req.renames → FileIdsOfParties computeTrustId w.fs.tmp) :
    Triple (IdsOfParties computeTrustId) P (request req) fun _ _ => True :=
  triple_request fun w _ hw hP => ⟨hw.respond hreq (htmp w hP) _, fun _ _ => trivial⟩

/-- A change of the store that leaves a map with the invariant keeps it. -/
theorem modify_ids {f : JsonTrustStore → JsonTrustStore}
    (hf : ∀ w, IdsOfParties computeTrustId w → P w → MapIdsOfParties computeTrustId (f w.store).recordMap) :
    Triple (IdsOfParties computeTrustId) P (modifyStore f) fun _ _ => True :=
  triple_modifyStore fun w hw hP => ⟨⟨hf w hw hP, hw.file⟩, trivial⟩

/-- A finished program keeps the invariant. -/
theorem done_ids {a : α} : Triple (IdsOfParties computeTrustId) P (.done (.ok a)) fun _ _ => True :=
  triple_pure fun _ _ _ => trivial

/-- The records of the `.tmp` file just written are the map's. -/
theorem writeTmp_ids (entityName : List Char) {s : JsonTrustStore} :
    Triple (IdsOfParties computeTrustId) (fun w => P w ∧ w.store = s)
      (request (.writeTmp (.ofRecords entityName s.recordMap.values)))
      fun _ w => FileIdsOfParties computeTrustId w.fs.tmp := by
  refine triple_request fun w fault hw ⟨_, hs⟩ => ⟨hw.respond ?_ (by simp [IoRequest.renames]) fault,
    fun _ h f hf r hr => ?_⟩
  · simpa [IoRequest.written, ← hs] using hw.map.values
  · rw [IoRequest.respond_writeTmp h, Option.mem_def, Option.some.injEq] at hf
    subst hf
    exact hw.map.values r (by simpa [← hs] using hr)

/-- The records read from the file have ids of their parties. -/
theorem readFile_ids :
    Triple (IdsOfParties computeTrustId) P (request .readFile)
      fun raw _ => ∀ r ∈ raw.allRecords, IdOfParties computeTrustId r := by
  refine triple_request fun w fault hw _ => ⟨hw.respond (by simp [IoRequest.written])
    (by simp [IoRequest.renames]) fault, fun raw h => ?_⟩
  obtain ⟨f, hf, rfl⟩ := IoRequest.respond_readFile h
  exact hw.file f hf

end Steps

/-! ### The methods -/

section Methods

variable (entityName : List Char) {P : World → Prop}

open Prog

/-- `writeToFile` keeps the invariant: it writes the map's records. -/
theorem writeToFile_ids :
    Triple (IdsOfParties computeTrustId) P (writeToFile entityName) fun _ _ => True := by
  unfold writeToFile
  simp only [bind_eq, pure_eq]
  refine triple_getStore.bind fun _ => triple_ite done_ids ?_
  refine (modify_ids fun _ hw _ => hw.map).bind fun _ =>
    (request_ids (by simp [IoRequest.written]) (by simp [IoRequest.renames])).bind fun _ => ?_
  refine Triple.tryFinally ?_ (fun _ => request_ids (by simp [IoRequest.written])
    (by simp [IoRequest.renames])) (request_ids (by simp [IoRequest.written]) (by simp [IoRequest.renames]))
  refine triple_getStore.bind fun _ => (writeTmp_ids entityName).bind fun _ => ?_
  refine (request_ids (by simp [IoRequest.written]) fun _ htmp _ => htmp).bind fun _ => ?_
  exact (request_ids (by simp [IoRequest.written]) (by simp [IoRequest.renames])).bind fun _ =>
    modify_ids fun _ hw _ => hw.map

/-- `init` keeps the invariant: it loads the file's records, or creates a file with none. -/
theorem init_ids : Triple (IdsOfParties computeTrustId) P (init entityName) fun _ _ => True := by
  unfold init
  simp only [bind_eq, pure_eq]
  refine triple_existsSync.bind fun _ => (triple_ite (request_ids (by simp [IoRequest.written])
    (by simp [IoRequest.renames])) done_ids).bind fun _ => readFile_ids.bind fun raw => ?_
  refine Triple.of_pre fun hraw => (triple_ite (triple_throw _ _) done_ids).bind fun _ =>
    (modify_ids fun _ _ _ => MapIdsOfParties.empty).bind fun _ => ?_
  split
  · rename_i records hsel
    exact modify_ids fun _ _ _ => MapIdsOfParties.ofRecords fun r hr =>
      hraw r (TrustFile.subset_allRecords hsel r hr)
  · exact triple_throw _ _

/-- `flushAndReload` keeps the invariant. -/
theorem flushAndReload_ids :
    Triple (IdsOfParties computeTrustId) P (flushAndReload entityName) fun _ _ => True := by
  unfold flushAndReload
  simp only [bind_eq]
  exact (writeToFile_ids entityName).await.bind fun _ =>
    (modify_ids fun _ _ _ => MapIdsOfParties.empty).bind fun _ => (init_ids entityName).await

/-- `reloadIfChanged` keeps the invariant. -/
theorem reloadIfChanged_ids :
    Triple (IdsOfParties computeTrustId) P (reloadIfChanged entityName) fun _ _ => True := by
  unfold reloadIfChanged
  simp only [bind_eq, pure_eq]
  exact (request_ids (by simp [IoRequest.written]) (by simp [IoRequest.renames])).bind fun _ =>
    triple_getStore.bind fun _ => triple_ite ((flushAndReload_ids entityName).await.bind
      fun _ => modify_ids fun _ hw _ => hw.map) done_ids

/-- `getById` returns a record stored under the id it was asked for. -/
theorem getById_ids (computedId : List Char) :
    Triple (IdsOfParties computeTrustId) P (getById entityName computedId)
      fun found _ => ∀ r ∈ found, r.id = computedId ∧ IdOfParties computeTrustId r := by
  unfold getById
  simp only [bind_eq, pure_eq]
  refine triple_getStore.bind fun _ => (triple_ite (init_ids entityName).await done_ids).bind
    fun _ => (reloadIfChanged_ids entityName).await.bind fun _ => triple_getStore.bind fun _ => ?_
  exact triple_pure fun _ hw ⟨_, hs⟩ _ hr => hw.map.get (hs ▸ hr)

/-- `create` keeps the invariant when the given id, if any, is the parties'. -/
theorem create_ids {record : TrustRecordInput} {computedId : Option (List Char)}
    (hid : ∀ id ∈ computedId, id = computeTrustId record.senderId record.receiverId) :
    Triple (IdsOfParties computeTrustId) P (create entityName computeTrustId record computedId)
      fun _ _ => True := by
  unfold create
  simp only [bind_eq, pure_eq]
  refine (triple_ite (triple_throw _ _) done_ids).bind fun _ => (getById_ids entityName _).await.bind
    fun _ => (triple_ite (triple_throw _ _) done_ids).bind fun _ => ?_
  refine (modify_ids fun _ hw _ => hw.map.set rfl (idOfParties_withId hid)).bind fun _ => ?_
  exact (modify_ids fun _ hw _ => hw.map).bind fun _ => (modify_ids fun _ hw _ => hw.map).bind
    fun _ => done_ids

/-- `update` keeps the invariant when the patch keeps the record's id that of its parties. -/
theorem update_ids {computedId : List Char} {patch : TrustRecordPatch}
    (hpatch : KeepsParties computeTrustId computedId patch) :
    Triple (IdsOfParties computeTrustId) P (update entityName computedId patch) fun _ _ => True := by
  unfold update
  simp only [bind_eq, pure_eq]
  refine (getById_ids entityName computedId).await.bind fun found => Triple.of_pre fun hfound => ?_
  split
  · exact triple_throw _ _
  · rename_i record
    obtain ⟨hid, hparties⟩ := hpatch record (hfound record rfl).1 (hfound record rfl).2
    exact (modify_ids fun _ hw _ => hw.map.set hid hparties).bind fun _ =>
      (modify_ids fun _ hw _ => hw.map).bind fun _ => (modify_ids fun _ hw _ => hw.map).bind
        fun _ => done_ids

/-- `delete` keeps the invariant. -/
theorem delete_ids (computedId : List Char) :
    Triple (IdsOfParties computeTrustId) P (delete entityName computedId) fun _ _ => True := by
  unfold delete
  simp only [bind_eq, pure_eq]
  refine triple_getStore.bind fun _ => (triple_ite (init_ids entityName).await done_ids).bind
    fun _ => triple_getStore.bind fun _ => ?_
  refine (modify_ids fun _ hw ⟨_, hs⟩ => hs ▸ hw.map.delete computedId).bind fun _ =>
    triple_ite ((modify_ids fun _ hw _ => hw.map).bind fun _ => modify_ids fun _ hw _ => hw.map) done_ids

/-- `getAll` keeps the invariant. -/
theorem getAll_ids (receiverId : Option (List Char)) :
    Triple (IdsOfParties computeTrustId) P (getAll entityName receiverId) fun _ _ => True := by
  unfold getAll
  simp only [bind_eq, pure_eq]
  exact triple_getStore.bind fun _ => (triple_ite (init_ids entityName).await done_ids).bind
    fun _ => (reloadIfChanged_ids entityName).await.bind fun _ => triple_getStore.bind
      fun _ => done_ids

/-- Every call of the invariant keeps it, and so does every event of the timer and the
signal handlers. -/
theorem TrustStoreCall.prog_ids {c : TrustStoreCall} (hc : c.KeepsPartyIds computeTrustId) :
    Triple (IdsOfParties computeTrustId) P (c.prog entityName computeTrustId) fun _ _ => True := by
  cases c with
  | getById id => exact (getById_ids entityName id).map _
  | create record id => exact (create_ids entityName hc).map _
  | update id patch => exact (update_ids entityName hc).map _
  | delete id => exact (delete_ids entityName id).map _
  | getAll receiverId => exact (getAll_ids entityName receiverId).map _
  | flushNow => exact (writeToFile_ids entityName).await.map _
  | flushAndReload => exact (flushAndReload_ids entityName).map _
  | debouncedWrite =>
    simp only [prog, bind_eq, pure_eq]
    exact triple_getStore.bind fun _ => (triple_ite ((modify_ids fun _ hw _ => hw.map).bind
      fun _ => writeToFile_ids entityName) done_ids).bind fun _ => done_ids
  | signalFlush => exact (writeToFile_ids entityName).await.map _

end Methods

/-- Calls of the invariant, awaited one at a time from a world with it, end in a world
with it. -/
theorem runCalls_ids (entityName : List Char) :
    ∀ (calls : List TrustStoreCall) (w : World) (faults : List Bool),
      IdsOfParties computeTrustId w → (∀ c ∈ calls, c.KeepsPartyIds computeTrustId) →
        IdsOfParties computeTrustId (runCalls entityName computeTrustId calls w faults).2
  | [], _, _, hw, _ => hw
  | c :: cs, w, faults, hw, hcalls =>
    runCalls_ids entityName cs _ _
      ((TrustStoreCall.prog_ids entityName (hcalls c (List.mem_cons_self _ _)) :
        Prog.Triple _ (fun _ => True) _ _) w faults hw trivial).1
      fun c' hc' => hcalls c' (List.mem_cons_of_mem _ hc')

/-- From a fresh store over a file whose records carry the ids of their parties, an
absent or empty file among them, every run of calls that create under the computed id
and patch without moving parties or id, under any faults of the disk, ends with every
record under its id, the id of its parties. So no two records share their parties, and
reloading the records as written keys them as before. -/
theorem runCalls_keyed_by_parties (entityName : List Char) {fs : FileSystem}
    (hfile : ∀ f ∈ fs.file, ∀ r ∈ f.contents.allRecords,
      r.id = computeTrustId r.senderId r.receiverId)
    {calls : List TrustStoreCall} (hcalls : ∀ c ∈ calls, c.KeepsPartyIds computeTrustId)
    (faults : List Bool) :
    let m := (runCalls entityName computeTrustId calls ⟨.fresh, fs⟩ faults).2.store.recordMap
    (∀ k r, (k, r) ∈ m.entries → r.id = k ∧ k = computeTrustId r.senderId r.receiverId) ∧
      (∀ k₁ r₁ k₂ r₂, (k₁, r₁) ∈ m.entries → (k₂, r₂) ∈ m.entries →
        r₁.senderId = r₂.senderId → r₁.receiverId = r₂.receiverId → k₁ = k₂ ∧ r₁ = r₂) ∧
      RecordMap.ofRecords m.values = m := by
  have hm := (runCalls_ids entityName calls ⟨.fresh, fs⟩ faults ⟨MapIdsOfParties.empty, hfile⟩ hcalls).map
  refine ⟨fun k r h => ⟨hm.keyed k r h, (hm.keyed k r h).symm.trans (hm.parties k r h)⟩,
    fun _ _ _ _ h₁ h₂ => hm.eq_of_parties h₁ h₂, RecordMap.ofRecords_values hm.keyed⟩

/-- A missing file, a create under the computed id and a status update satisfy the
hypotheses. -/
theorem runCalls_keyed_by_parties_status :
    let computeTrustId := fun senderId receiverId : List Char => senderId ++ '→' :: receiverId
    let calls : List TrustStoreCall :=
      [.create ⟨none, "alice$a.example".toList, "bob$b.example".toList, .requested,
          "2025-01-01".toList, none, none, none⟩ none,
        .update "alice$a.example→bob$b.example".toList { status := some .accepted }]
    (∀ c ∈ calls, c.KeepsPartyIds computeTrustId) ∧
      ∀ k r, (k, r) ∈ (runCalls [] computeTrustId calls ⟨.fresh, ⟨none, none, false, 1⟩⟩ []).2.store.recordMap.entries →
        r.id = k ∧ k = computeTrustId r.senderId r.receiverId := by
  intro computeTrustId calls
  have hcalls : ∀ c ∈ calls, c.KeepsPartyIds computeTrustId := by
    simp only [calls, List.mem_cons, List.mem_singleton, List.not_mem_nil, or_false]
    rintro c (rfl | rfl)
    · simp [TrustStoreCall.KeepsPartyIds]
    · exact keepsParties_of_keys rfl rfl rfl
  exact ⟨hcalls, (runCalls_keyed_by_parties [] (by simp) hcalls []).1⟩

/-- A patch that sets `id` leaves the record under its old key with another id. -/
theorem update_id_patch_moves_record :
    let m := (runCalls [] (fun senderId receiverId => senderId ++ '→' :: receiverId)
      [.create ⟨none, "alice$a.example".toList, "bob$b.example".toList, .requested,
          "2025-01-01".toList, none, none, none⟩ none,
        .update "alice$a.example→bob$b.example".toList { id := some "x".toList }]
      ⟨.fresh, ⟨none, none, false, 1⟩⟩ []).2.store.recordMap
    ¬ ∀ e ∈ m.entries, e.2.id = e.1 := by
  decide

end

end Btps
