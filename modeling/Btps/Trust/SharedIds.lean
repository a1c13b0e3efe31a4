import Btps.Trust.RecordInvariant
import Btps.Trust.TrustIds

/-!
# Ids over one shared file

Two invariants of the ids hold under every schedule of any number of stores over one
file.

The first is the id of the parties. One store keeps every record under the id of its
parties (`runCalls_keyed_by_parties`), and so do any number of stores over one file, as
long as every started `create` takes the computed id and no started patch moves a record
off the id of its parties. Every map keeps each record under its id, the id of its
parties, and every record of the file, of the `.tmp` file and of a reply carries the id
of its parties (`stores_keyed_by_parties`). Two stores can still hold different records
for the same parties, one each, and one of them is lost when both write
(`concurrent_writes_lose_record`). What no schedule reaches is a map with two records for
the same parties, or a record under another id.

The second is one record per id. When no started patch sets another id than the one it
updates, every map keeps each record under its own id, and the file and the `.tmp` file
hold at most one record per id. So `init`, which keys the records it reads by their ids,
drops none of them when it loads the file (`file_ids_distinct`).
-/
namespace Btps

/-! ### The id of the parties -/

/-- Clearing, deleting from, loading and writing a map keep every record under its id, the
id of its parties. -/
theorem closed_idsOfParties (computeTrustId : List Char → List Char → List Char)
    (entityName : List Char) :
    Closed (MapIdsOfParties computeTrustId)
      (fun c => ∀ r ∈ c.allRecords, IdOfParties computeTrustId r) (IdOfParties computeTrustId)
      entityName where
  empty := MapIdsOfParties.empty
  delete _ key hm := hm.delete key
  load _ _ hraw hselect :=
    MapIdsOfParties.ofRecords fun r hr => hraw r (TrustFile.subset_allRecords hselect r hr)
  write _ hm r hr := hm.values r (by simpa using hr)
  values _ hm := hm.values

variable {computeTrustId : List Char → List Char → List Char}

/-- A call that creates under the computed id and patches without moving parties or id
sets and returns only records under the ids of their parties. -/
theorem TrustStoreCall.keeps_idsOfParties {c : TrustStoreCall}
    (hc : c.KeepsPartyIds computeTrustId) :
    c.Keeps (MapIdsOfParties computeTrustId) (IdOfParties computeTrustId) computeTrustId := by
  cases c with
  | create record computedId =>
    have hnew := idOfParties_withId hc
    exact ⟨hnew, fun _ hm => hm.set rfl hnew⟩
  | update computedId patch =>
    intro _ r hm hget
    obtain ⟨hid, hparties⟩ := hm.get hget
    obtain ⟨hid', hparties'⟩ := hc r hid hparties
    exact ⟨hparties', fun _ hm' => hm'.set hid' hparties'⟩
  | _ => trivial

/-- Take any number of stores over one file whose maps keep every record under its id, the
id of its parties, and whose file and `.tmp` file hold only records with the ids of their
parties. Under every schedule whose started calls create under the computed id and patch
without moving parties or id, every map still keeps every record under its id, the id of
its parties, so no map holds two records for the same parties. Every record of the file,
of the `.tmp` file and of a reply carries the id of its parties. -/
theorem stores_keyed_by_parties (entityName : List Char)
    (computeTrustId : List Char → List Char → List Char) {stores : List JsonTrustStore}
    {fs : FileSystem} (hstores : ∀ s ∈ stores, MapIdsOfParties computeTrustId s.recordMap)
    (hfile : ∀ f ∈ fs.file, ∀ r ∈ f.contents.allRecords,
      r.id = computeTrustId r.senderId r.receiverId)
    (htmp : ∀ f ∈ fs.tmp, ∀ r ∈ f.contents.allRecords,
      r.id = computeTrustId r.senderId r.receiverId)
    {es : List Event}
    (hcalls : ∀ c ∈ es.filterMap Event.startedCall, c.KeepsPartyIds computeTrustId)
    {sys : System} (hrun : System.run entityName computeTrustId es ⟨stores, fs, []⟩ = some sys) :
    (∀ s ∈ sys.stores, ∀ k r, (k, r) ∈ s.recordMap.entries →
      r.id = k ∧ k = computeTrustId r.senderId r.receiverId) ∧
    (∀ s ∈ sys.stores, ∀ k₁ r₁ k₂ r₂, (k₁, r₁) ∈ s.recordMap.entries →
      (k₂, r₂) ∈ s.recordMap.entries → r₁.senderId = r₂.senderId →
        r₁.receiverId = r₂.receiverId → k₁ = k₂ ∧ r₁ = r₂) ∧
    (∀ f ∈ sys.fs.file, ∀ r ∈ f.contents.allRecords,
      r.id = computeTrustId r.senderId r.receiverId) ∧
    (∀ f ∈ sys.fs.tmp, ∀ r ∈ f.contents.allRecords,
      r.id = computeTrustId r.senderId r.receiverId) ∧
    ∀ task ∈ sys.tasks, ∀ reply ∈ task.prog.returned, ∀ r ∈ reply.carried,
      r.id = computeTrustId r.senderId r.receiverId := by
  have h := (System.keeps_start hstores ⟨hfile, htmp⟩).run
    (closed_idsOfParties computeTrustId entityName)
    (fun _ hc => TrustStoreCall.keeps_idsOfParties (hcalls _ hc)) hrun
  refine ⟨fun s hs k r hkr => ?_, fun s hs _ _ _ _ h₁ h₂ => (h.stores s hs).eq_of_parties h₁ h₂,
    h.fs.1, h.fs.2, h.replies⟩
  have hkeyed := (h.stores s hs).keyed k r hkr
  exact ⟨hkeyed, hkeyed.symm.trans ((h.stores s hs).parties k r hkr)⟩

/-- Two stores over one file: the first creates a record and flushes it to the file, the
second loads the file and updates the record's status. The stores end with different
records for the same parties, each under the id of its parties. -/
theorem stores_keyed_by_parties_two_stores :
    let es : List Event :=
      [.call 0 (.create ⟨none, "alice$a.example".toList, "bob$b.example".toList, .requested,
          "2025-01-01".toList, none, none, none⟩ none),
        .effect 0, .resume 0, .resume 0, .effect 0, .resume 0, .resume 0, .effect 0, .resume 0,
        .resume 0, .resume 0, .resume 0, .resume 0,
        .call 0 .flushNow, .effect 1, .resume 1, .effect 1, .resume 1, .effect 1, .resume 1,
        .effect 1, .resume 1, .effect 1, .resume 1, .resume 1,
        .call 1 (.update "alice$a.example→bob$b.example".toList { status := some .accepted }),
        .effect 2, .resume 2, .resume 2, .effect 2, .resume 2, .resume 2, .effect 2, .resume 2,
        .resume 2, .resume 2, .resume 2, .resume 2]
    let computeTrustId := fun senderId receiverId : List Char => senderId ++ '→' :: receiverId
    let sys₀ : System := ⟨[.fresh, .fresh], ⟨some ⟨.array [], 1⟩, none, false, 2⟩, []⟩
    ∃ sys, System.run [] computeTrustId es sys₀ = some sys ∧
      (sys.stores.map fun s => s.recordMap.size) = [1, 1] ∧
      ∀ s ∈ sys.stores, ∀ k r, (k, r) ∈ s.recordMap.entries →
        r.id = k ∧ k = computeTrustId r.senderId r.receiverId := by
  intro es computeTrustId sys₀
  have hrun := (Option.getD_of_ne_none (Option.ne_none_iff_isSome.mpr
    (by decide : (System.run [] computeTrustId es sys₀).isSome)) sys₀).symm
  have hstarted : es.filterMap Event.startedCall =
      [.create ⟨none, "alice$a.example".toList, "bob$b.example".toList, .requested,
          "2025-01-01".toList, none, none, none⟩ none, .flushNow,
        .update "alice$a.example→bob$b.example".toList { status := some .accepted }] := rfl
  have hcalls : ∀ c ∈ es.filterMap Event.startedCall, c.KeepsPartyIds computeTrustId := by
    rw [hstarted]
    simp only [List.mem_cons, List.mem_singleton, List.not_mem_nil, or_false]
    rintro c (rfl | rfl | rfl)
    · exact nofun
    · trivial
    · exact keepsParties_of_keys rfl rfl rfl
  have hstores : ∀ s ∈ sys₀.stores, MapIdsOfParties computeTrustId s.recordMap := by
    simp [sys₀, JsonTrustStore.fresh, MapIdsOfParties.empty]
  exact ⟨_, hrun, by decide, (stores_keyed_by_parties [] computeTrustId hstores
    (fun _ hf _ hr => by cases hf; cases hr) (fun _ hf => by cases hf) hcalls hrun).1⟩

/-! ### One record per id -/

/-- Clearing, deleting from, loading and writing a map keep every record under its own id,
and a file written from such a map holds one record per id. -/
theorem closed_keyedById (entityName : List Char) :
    Closed RecordMap.KeyedById (fun c => (c.allRecords.map BTPTrustRecord.id).Nodup)
      (fun _ => True) entityName where
  empty := RecordMap.keyedById_empty
  delete _ key hm := hm.delete key
  load _ records _ _ := RecordMap.keyedById_ofRecords records
  write _ hm := by simpa using hm.nodup_ids
  values _ _ _ _ := trivial

/-- A call whose patch, if it has one, keeps the id it updates keeps every record under its
own id. -/
theorem TrustStoreCall.keeps_keyedById {c : TrustStoreCall}
    (hc : ∀ computedId patch, c = .update computedId patch → ∀ id ∈ patch.id, id = computedId) :
    c.Keeps RecordMap.KeyedById (fun _ => True) computeTrustId := by
  cases c with
  | create record computedId => exact ⟨trivial, fun _ hm => hm.set rfl⟩
  | update computedId patch =>
    exact fun _ _ hm hget => ⟨trivial, fun _ hm' => hm'.set (hm.merge_id hget (hc _ _ rfl))⟩
  | _ => trivial

/-- Take any number of stores over one file whose maps keep every record under its own id,
and whose file and `.tmp` file hold at most one record per id. Under every schedule whose
started updates never set another id than the one they update, every map keeps each record
under its own id, and the file and the `.tmp` file hold at most one record per id. So
whenever a store loads the file, `recordMap.set(r.id, r)` keeps every record it reads: no
load drops a record. -/
theorem file_ids_distinct (entityName : List Char)
    (computeTrustId : List Char → List Char → List Char) {stores : List JsonTrustStore}
    {fs : FileSystem} (hstores : ∀ s ∈ stores, s.recordMap.KeyedById)
    (hfile : ∀ f ∈ fs.file, (f.contents.allRecords.map BTPTrustRecord.id).Nodup)
    (htmp : ∀ f ∈ fs.tmp, (f.contents.allRecords.map BTPTrustRecord.id).Nodup)
    {es : List Event}
    (hpatches : ∀ computedId patch,
      TrustStoreCall.update computedId patch ∈ es.filterMap Event.startedCall →
        ∀ id ∈ patch.id, id = computedId)
    {sys : System} (hrun : System.run entityName computeTrustId es ⟨stores, fs, []⟩ = some sys) :
    (∀ s ∈ sys.stores, s.recordMap.KeyedById) ∧
    (∀ f ∈ sys.fs.file, (f.contents.allRecords.map BTPTrustRecord.id).Nodup) ∧
    (∀ f ∈ sys.fs.tmp, (f.contents.allRecords.map BTPTrustRecord.id).Nodup) ∧
    ∀ f ∈ sys.fs.file, ∀ records, f.contents.select entityName = some records →
      (RecordMap.ofRecords records).values = records := by
  have h := (System.keeps_start hstores ⟨hfile, htmp⟩).run (closed_keyedById entityName)
    (fun c hc => TrustStoreCall.keeps_keyedById fun _ _ heq => hpatches _ _ (heq ▸ hc)) hrun
  refine ⟨h.stores, h.fs.1, h.fs.2, fun f hf records hselect => ?_⟩
  have hdistinct := ((TrustFile.select_sublist hselect).map BTPTrustRecord.id).nodup (h.fs.1 f hf)
  exact RecordMap.values_ofRecords hdistinct

/-- Two stores over one file each create a record and flush it. The second flush overwrites
the first, so the file ends with one record, which a load keeps. -/
theorem file_ids_distinct_two_writers :
    let es : List Event :=
      [.call 0 (.create ⟨none, "alice$a.example".toList, "bob$b.example".toList, .requested,
          "2025-01-01".toList, none, none, none⟩ none),
        .effect 0, .resume 0, .resume 0, .effect 0, .resume 0, .resume 0, .effect 0, .resume 0,
        .resume 0, .resume 0, .resume 0, .resume 0,
        .call 1 (.create ⟨none, "carol$c.example".toList, "bob$b.example".toList, .requested,
          "2025-01-02".toList, none, none, none⟩ none),
        .effect 1, .resume 1, .resume 1, .effect 1, .resume 1, .resume 1, .effect 1, .resume 1,
        .resume 1, .resume 1, .resume 1, .resume 1,
        .call 0 .flushNow, .effect 2, .resume 2, .effect 2, .resume 2, .effect 2, .resume 2,
        .effect 2, .resume 2, .effect 2, .resume 2, .resume 2,
        .call 1 .flushNow, .effect 3, .resume 3, .effect 3, .resume 3, .effect 3, .resume 3,
        .effect 3, .resume 3, .effect 3, .resume 3, .resume 3]
    let computeTrustId := fun senderId receiverId : List Char => senderId ++ '→' :: receiverId
    let sys₀ : System := ⟨[.fresh, .fresh], ⟨some ⟨.array [], 1⟩, none, false, 2⟩, []⟩
    ∃ sys, System.run [] computeTrustId es sys₀ = some sys ∧
      (sys.fs.file.map fun f => f.contents.allRecords.length) = some 1 ∧
      ∀ f ∈ sys.fs.file, ∀ records, f.contents.select [] = some records →
        (RecordMap.ofRecords records).values = records := by
  intro es computeTrustId sys₀
  have hrun := (Option.getD_of_ne_none (Option.ne_none_iff_isSome.mpr
    (by decide : (System.run [] computeTrustId es sys₀).isSome)) sys₀).symm
  have hpatches : ∀ computedId patch,
      TrustStoreCall.update computedId patch ∈ es.filterMap Event.startedCall →
        ∀ id ∈ patch.id, id = computedId := by
    intro computedId patch h
    simp [es, Event.startedCall] at h
  have hstores : ∀ s ∈ sys₀.stores, s.recordMap.KeyedById := by
    simp [sys₀, JsonTrustStore.fresh, RecordMap.keyedById_empty]
  exact ⟨_, hrun, by decide, (file_ids_distinct [] computeTrustId hstores
    (fun _ hf => by cases hf; exact List.nodup_nil) (fun _ hf => by cases hf) hpatches hrun).2.2.2⟩

end Btps
