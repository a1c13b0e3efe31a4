import Mathlib.Data.List.Nodup

/-!
# Trust records and the record map

A trust record says that one identity lets another send it artifacts. The store keeps
its records in a JavaScript `Map` from ids to records, which remembers insertion order:
`set` on a present key replaces the value in place, and on a new key appends it. The
map below carries the distinctness of its keys, so every operation keeps it.
-/

namespace Btps

/-- Modelled from the spec: the status of a trust record. -/
inductive TrustStatus
  | requested
  | accepted
  | revoked
  | expired
  deriving DecidableEq, Repr

/-- Modelled from the spec: `BTPTrustRecord` of the trust types. `policy` is an
arbitrary map, kept as its entries with string values only. -/
structure BTPTrustRecord where
  id : List Char
  senderId : List Char
  receiverId : List Char
  status : TrustStatus
  issuedAt : List Char
  decidedAt : Option (List Char)
  expiresAt : Option (List Char)
  policy : Option (List (List Char × List Char))
  deriving DecidableEq, Repr

/-- The argument of `create`, `Omit<BTPTrustRecord, 'id'>`. The type omits `id`, but the
object may still carry one, which `'id' in record` detects. -/
structure TrustRecordInput where
  id : Option (List Char)
  senderId : List Char
  receiverId : List Char
  status : TrustStatus
  issuedAt : List Char
  decidedAt : Option (List Char)
  expiresAt : Option (List Char)
  policy : Option (List (List Char × List Char))
  deriving DecidableEq, Repr

/-- `{ id, ...record }` for a record without an id. -/
def TrustRecordInput.withId (record : TrustRecordInput) (id : List Char) : BTPTrustRecord :=
  ⟨id, record.senderId, record.receiverId, record.status, record.issuedAt, record.decidedAt,
    record.expiresAt, record.policy⟩

/-- The argument of `update`, `Partial<BTPTrustRecord>`: the fields it sets. -/
structure TrustRecordPatch where
  id : Option (List Char) := none
  senderId : Option (List Char) := none
  receiverId : Option (List Char) := none
  status : Option TrustStatus := none
  issuedAt : Option (List Char) := none
  decidedAt : Option (List Char) := none
  expiresAt : Option (List Char) := none
  policy : Option (List (List Char × List Char)) := none
  deriving DecidableEq, Repr

/-- `{ ...record, ...patch }`: every field the patch sets overrides the record's. A patch
key present with the value `undefined` counts as absent, where the spread would clear the
field; the file's `JSON.stringify` and `JSON.parse` round trip is not modelled, and policy
values are strings only. -/
def BTPTrustRecord.merge (record : BTPTrustRecord) (patch : TrustRecordPatch) : BTPTrustRecord :=
  ⟨patch.id.getD record.id, patch.senderId.getD record.senderId,
    patch.receiverId.getD record.receiverId, patch.status.getD record.status,
    patch.issuedAt.getD record.issuedAt, patch.decidedAt.orElse fun _ => record.decidedAt,
    patch.expiresAt.orElse fun _ => record.expiresAt, patch.policy.orElse fun _ => record.policy⟩

/-- A record built from an input carries the id it is given. -/
@[simp] theorem TrustRecordInput.withId_id (record : TrustRecordInput) (id : List Char) :
    (record.withId id).id = id := rfl

/-- A record built from an input keeps its sender. -/
@[simp] theorem TrustRecordInput.withId_senderId (record : TrustRecordInput) (id : List Char) :
    (record.withId id).senderId = record.senderId := rfl

/-- A record built from an input keeps its receiver. -/
@[simp] theorem TrustRecordInput.withId_receiverId (record : TrustRecordInput) (id : List Char) :
    (record.withId id).receiverId = record.receiverId := rfl

/-- A patch without identity fields keeps the record's id and parties. -/
theorem BTPTrustRecord.merge_keys (record : BTPTrustRecord) {patch : TrustRecordPatch}
    (hid : patch.id = none) (hs : patch.senderId = none) (hr : patch.receiverId = none) :
    (record.merge patch).id = record.id ∧ (record.merge patch).senderId = record.senderId ∧
      (record.merge patch).receiverId = record.receiverId := by
  simp [merge, hid, hs, hr]

/-- A JavaScript `Map` from ids to records: its entries in insertion order, with
distinct keys. -/
structure RecordMap where
  entries : List (List Char × BTPTrustRecord)
  nodup : (entries.map Prod.fst).Nodup

namespace RecordMap

/-- Two maps with the same entries, in the same order, are equal. -/
@[ext] theorem ext {m m' : RecordMap} (h : m.entries = m'.entries) : m = m' := by
  cases m; cases m'; cases h; rfl

/-- Maps are compared by their entries, so that a map can be evaluated and tested. -/
instance : DecidableEq RecordMap := fun m m' =>
  decidable_of_iff (m.entries = m'.entries) ⟨ext, fun h => h ▸ rfl⟩

/-- `new Map()`. -/
def empty : RecordMap := ⟨[], List.nodup_nil⟩

/-- `map.get(key)`. -/
def get (m : RecordMap) (key : List Char) : Option BTPTrustRecord := m.entries.lookup key

/-- `map.size`. -/
def size (m : RecordMap) : Nat := m.entries.length

/-- `[...map.values()]`. -/
def values (m : RecordMap) : List BTPTrustRecord := m.entries.map Prod.snd

/-- Replacing the value under a key keeps the keys. -/
theorem keys_replace (entries : List (List Char × BTPTrustRecord)) (key : List Char)
    (value : BTPTrustRecord) :
    (entries.map fun e => if e.1 = key then (key, value) else e).map Prod.fst =
      entries.map Prod.fst := by
  rw [List.map_map]
  exact List.map_congr_left fun e _ => by by_cases he : e.1 = key <;> simp [he]

/-- Appending an entry under a new key keeps the keys distinct. -/
theorem nodup_keys_append {entries : List (List Char × BTPTrustRecord)} {key : List Char}
    (hnodup : (entries.map Prod.fst).Nodup) (hkey : key ∉ entries.map Prod.fst)
    (value : BTPTrustRecord) : ((entries ++ [(key, value)]).map Prod.fst).Nodup := by
  rw [List.map_append]
  exact List.nodup_append.mpr ⟨hnodup, List.nodup_singleton _, List.disjoint_singleton.mpr hkey⟩

/-- `map.set(key, value)`: in place for a present key, appended for a new one. -/
def set (m : RecordMap) (key : List Char) (value : BTPTrustRecord) : RecordMap :=
  if h : key ∈ m.entries.map Prod.fst then
    ⟨m.entries.map fun e => if e.1 = key then (key, value) else e,
      (keys_replace m.entries key value).symm ▸ m.nodup⟩
  else ⟨m.entries ++ [(key, value)], nodup_keys_append m.nodup h value⟩

/-- `map.delete(key)`: the map without the key, and whether the key was present. -/
def delete (m : RecordMap) (key : List Char) : RecordMap × Bool :=
  (⟨m.entries.filter (·.1 != key), ((List.filter_sublist m.entries).map Prod.fst).nodup m.nodup⟩,
    key ∈ m.entries.map Prod.fst)

/-- The map that `init` fills: `for (const r of records) map.set(r.id, r)` on an empty
map. -/
def ofRecords (records : List BTPTrustRecord) : RecordMap :=
  records.foldl (fun m r => m.set r.id r) empty

/-! ### Lookup -/

/-- `get` finds a value exactly when the map holds it under the key. -/
theorem get_eq_some_iff {m : RecordMap} {key : List Char} {value : BTPTrustRecord} :
    m.get key = some value ↔ (key, value) ∈ m.entries := by
  obtain ⟨entries, hnodup⟩ := m
  simp only [get]
  induction entries with
  | nil => simp
  | cons e es ih =>
    obtain ⟨k, v⟩ := e
    simp only [List.map_cons, List.nodup_cons, List.mem_map] at hnodup
    by_cases hk : key = k
    · subst hk
      simp only [List.lookup_cons, beq_self_eq_true, Option.some.injEq, List.mem_cons,
        Prod.mk.injEq, true_and]
      constructor
      · exact fun h => Or.inl h.symm
      · rintro (h | h)
        · exact h.symm
        · exact absurd ⟨(key, value), h, rfl⟩ hnodup.1
    · have hne : (key == k) = false := by simpa using hk
      simp only [List.lookup_cons, hne, List.mem_cons, Prod.mk.injEq, hk, false_and, false_or]
      exact ih hnodup.2

/-- After `set`, the map holds the new value under the key and every other entry as before. -/
theorem mem_set_iff {m : RecordMap} {key k : List Char} {value r : BTPTrustRecord} :
    (k, r) ∈ (m.set key value).entries ↔ (k = key ∧ r = value) ∨ (k ≠ key ∧ (k, r) ∈ m.entries) := by
  unfold set
  split
  · rename_i hkey
    simp only [List.mem_map]
    constructor
    · rintro ⟨e, he, heq⟩
      split at heq
      · cases heq
        exact Or.inl ⟨rfl, rfl⟩
      · subst heq
        exact Or.inr ⟨‹_›, he⟩
    · rintro (⟨rfl, rfl⟩ | ⟨hk, hmem⟩)
      · obtain ⟨e, he, hek⟩ := List.mem_map.mp hkey
        exact ⟨e, he, by simp [hek]⟩
      · exact ⟨(k, r), hmem, by simp [hk]⟩
  · rename_i hkey
    simp only [List.mem_append, List.mem_singleton, Prod.mk.injEq]
    constructor
    · rintro (hmem | h)
      · exact Or.inr ⟨fun hk => hkey (hk ▸ List.mem_map_of_mem Prod.fst hmem), hmem⟩
      · exact Or.inl h
    · rintro (h | ⟨-, hmem⟩)
      exacts [Or.inr h, Or.inl hmem]

/-- Every entry after `set` is the new one or was in the map. -/
theorem mem_set {m : RecordMap} {key k : List Char} {value r : BTPTrustRecord}
    (h : (k, r) ∈ (m.set key value).entries) : (k = key ∧ r = value) ∨ (k, r) ∈ m.entries :=
  (mem_set_iff.mp h).imp id And.right

/-- `get` after `set` under the same key finds the new value. -/
@[simp] theorem get_set_self (m : RecordMap) (key : List Char) (value : BTPTrustRecord) :
    (m.set key value).get key = some value :=
  get_eq_some_iff.mpr (mem_set_iff.mpr (Or.inl ⟨rfl, rfl⟩))

/-- A map that a record was set in is not empty. -/
theorem set_ne_empty (m : RecordMap) (key : List Char) (value : BTPTrustRecord) :
    m.set key value ≠ empty := fun he => by
  simpa [he, get, empty] using get_set_self m key value

/-- `set` under a new key appends the entry. -/
theorem set_of_not_mem {m : RecordMap} {key : List Char} (hkey : key ∉ m.entries.map Prod.fst)
    (value : BTPTrustRecord) : (m.set key value).entries = m.entries ++ [(key, value)] := by
  simp [set, hkey]

/-- A map of size zero is empty. -/
theorem eq_empty_of_size {m : RecordMap} (h : m.size = 0) : m = empty :=
  ext (List.length_eq_zero.mp h)

/-- Deleting an absent key leaves the map. -/
theorem delete_of_not_deleted {m : RecordMap} {key : List Char} (h : (m.delete key).2 = false) :
    (m.delete key).1 = m := by
  have hkey : key ∉ m.entries.map Prod.fst := of_decide_eq_false h
  ext1
  refine List.filter_eq_self.mpr fun e he => ?_
  have : e.1 ≠ key := fun hk => hkey (hk ▸ List.mem_map_of_mem _ he)
  simpa using this

/-- Every entry after `delete` was in the map. -/
theorem mem_delete {m : RecordMap} {key k : List Char} {r : BTPTrustRecord}
    (h : (k, r) ∈ (m.delete key).1.entries) : (k, r) ∈ m.entries :=
  List.mem_of_mem_filter h

/-! ### Maps keyed by the records' ids -/

/-- Every record is stored under its own id, as `init` stores them. -/
def KeyedById (m : RecordMap) : Prop := ∀ k r, (k, r) ∈ m.entries → r.id = k

/-- The empty map keys every record by its id. -/
theorem keyedById_empty : empty.KeyedById := fun _ _ h => by simp [empty] at h

/-- Setting a record under its own id keeps every record keyed by its id. -/
theorem KeyedById.set {m : RecordMap} (hm : m.KeyedById) {key : List Char}
    {value : BTPTrustRecord} (hvalue : value.id = key) : (m.set key value).KeyedById :=
  fun k r h => (mem_set h).elim (fun ⟨hk, hr⟩ => hk ▸ hr ▸ hvalue) (hm k r)

/-- Deleting keeps every record keyed by its id. -/
theorem KeyedById.delete {m : RecordMap} (hm : m.KeyedById) (key : List Char) :
    (m.delete key).1.KeyedById := fun k r h => hm k r (mem_delete h)

/-- A patch that sets no id but the key keeps the id of the record a keyed map holds under
the key. -/
theorem KeyedById.merge_id {m : RecordMap} (hm : m.KeyedById) {key : List Char}
    {r : BTPTrustRecord} (hget : m.get key = some r) {patch : TrustRecordPatch}
    (hpatch : ∀ id ∈ patch.id, id = key) : (r.merge patch).id = key := by
  cases hp : patch.id with
  | none => simpa [BTPTrustRecord.merge, hp] using hm _ _ (get_eq_some_iff.mp hget)
  | some id => simpa [BTPTrustRecord.merge, hp] using hpatch id hp

/-- Each entry after setting records under their ids was in the start map or is a record under
its id. -/
theorem mem_foldl_set {records : List BTPTrustRecord} :
    ∀ {acc : RecordMap} {k : List Char} {r : BTPTrustRecord},
      (k, r) ∈ (records.foldl (fun m r => m.set r.id r) acc).entries →
        (k, r) ∈ acc.entries ∨ (r.id = k ∧ r ∈ records) := by
  induction records with
  | nil => exact fun h => Or.inl h
  | cons r₀ rs ih =>
    intro acc k r h
    rcases ih h with h | ⟨hid, hr⟩
    · rcases mem_set h with ⟨rfl, rfl⟩ | h
      · exact Or.inr ⟨rfl, List.mem_cons_self _ _⟩
      · exact Or.inl h
    · exact Or.inr ⟨hid, List.mem_cons_of_mem _ hr⟩

/-- A loaded map keys each record by its id, and holds only records of the file. -/
theorem mem_ofRecords {records : List BTPTrustRecord} {k : List Char} {r : BTPTrustRecord}
    (h : (k, r) ∈ (ofRecords records).entries) : r.id = k ∧ r ∈ records :=
  (mem_foldl_set h).resolve_left (by simp [empty])

/-- A loaded map keys every record by its id. -/
theorem keyedById_ofRecords (records : List BTPTrustRecord) : (ofRecords records).KeyedById :=
  fun _ _ h => (mem_ofRecords h).1

/-- Setting records with distinct new ids under their ids appends them in order. -/
theorem foldl_set_of_fresh : ∀ (records : List BTPTrustRecord) (acc : RecordMap),
    (∀ r ∈ records, r.id ∉ acc.entries.map Prod.fst) → (records.map BTPTrustRecord.id).Nodup →
      (records.foldl (fun m r => m.set r.id r) acc).entries =
        acc.entries ++ records.map fun r => (r.id, r)
  | [], acc, _, _ => by simp
  | r :: rs, acc, hfresh, hnodup => by
    obtain ⟨hr, hrs⟩ := List.nodup_cons.mp (List.map_cons _ _ _ ▸ hnodup)
    rw [List.foldl_cons, foldl_set_of_fresh rs _ ?_ hrs,
      set_of_not_mem (hfresh r (List.mem_cons_self _ _))]
    · simp
    · intro r' hr' hmem
      rw [set_of_not_mem (hfresh r (List.mem_cons_self _ _))] at hmem
      simp only [List.map_append, List.map_cons, List.map_nil, List.mem_append,
        List.mem_singleton] at hmem
      rcases hmem with hmem | heq
      · exact hfresh r' (List.mem_cons_of_mem _ hr') hmem
      · exact hr (heq ▸ List.mem_map_of_mem _ hr')

/-- Writing a map keyed by ids and loading it back gives the same map. -/
theorem ofRecords_values {m : RecordMap} (hm : m.KeyedById) : ofRecords m.values = m := by
  have hpairs : m.values.map (fun r => (r.id, r)) = m.entries := by
    rw [values, List.map_map]
    conv_rhs => rw [← List.map_id m.entries]
    exact List.map_congr_left fun ⟨k, r⟩ h => by simp [hm k r h]
  have hids : m.values.map BTPTrustRecord.id = m.entries.map Prod.fst := by
    rw [← hpairs, List.map_map]
    rfl
  ext1
  rw [ofRecords, foldl_set_of_fresh _ _ (by simp [empty]) (hids ▸ m.nodup), hpairs]
  rfl

/-! ### The values -/

/-- In a map that keys every record by its id, the ids of the records are the keys. -/
theorem KeyedById.ids_eq_keys {m : RecordMap} (hm : m.KeyedById) :
    m.values.map BTPTrustRecord.id = m.entries.map Prod.fst := by
  rw [values, List.map_map]
  exact List.map_congr_left fun ⟨k, r⟩ h => hm k r h

/-- The records of a map keyed by id have distinct ids. -/
theorem KeyedById.nodup_ids {m : RecordMap} (hm : m.KeyedById) :
    (m.values.map BTPTrustRecord.id).Nodup :=
  hm.ids_eq_keys ▸ m.nodup

/-- Setting a record under an id that no record of a keyed map carries appends it. -/
theorem KeyedById.values_set {m : RecordMap} (hm : m.KeyedById) {key : List Char}
    (hkey : key ∉ m.values.map BTPTrustRecord.id) (value : BTPTrustRecord) :
    (m.set key value).values = m.values ++ [value] := by
  rw [values, set_of_not_mem (hm.ids_eq_keys ▸ hkey)]
  simp [values]

/-- Loading records with distinct ids keeps every one of them, in order. -/
theorem values_ofRecords {records : List BTPTrustRecord}
    (h : (records.map BTPTrustRecord.id).Nodup) : (ofRecords records).values = records := by
  rw [values, ofRecords, foldl_set_of_fresh _ _ (by simp [empty]) h]
  simp [empty, Function.comp_def]

/-- A record that `get` finds is among the map's values. -/
theorem mem_values_of_get {m : RecordMap} {key : List Char} {r : BTPTrustRecord}
    (h : m.get key = some r) : r ∈ m.values :=
  List.mem_map_of_mem Prod.snd (get_eq_some_iff.mp h)

/-- A keyed map holds nothing under an id that none of its records carries. -/
theorem KeyedById.get_eq_none {m : RecordMap} (hm : m.KeyedById) {key : List Char}
    (hkey : key ∉ m.values.map BTPTrustRecord.id) : m.get key = none :=
  Option.eq_none_iff_forall_not_mem.mpr fun _ hr =>
    hkey (hm _ _ (get_eq_some_iff.mp hr) ▸ List.mem_map_of_mem _ (mem_values_of_get hr))

/-- Each value after `set` is the new one or was a value before. -/
theorem mem_values_set {m : RecordMap} {key : List Char} {value r : BTPTrustRecord}
    (h : r ∈ (m.set key value).values) : r = value ∨ r ∈ m.values := by
  obtain ⟨⟨k, r⟩, hmem, rfl⟩ := List.mem_map.mp h
  exact (mem_set hmem).imp And.right (List.mem_map_of_mem Prod.snd)

/-- Each value after `delete` was a value before. -/
theorem mem_values_delete {m : RecordMap} {key : List Char} {r : BTPTrustRecord}
    (h : r ∈ (m.delete key).1.values) : r ∈ m.values := by
  obtain ⟨⟨k, r⟩, hmem, rfl⟩ := List.mem_map.mp h
  exact List.mem_map_of_mem Prod.snd (mem_delete hmem)

/-- Each value of a loaded map is one of the file's records. -/
theorem mem_values_ofRecords {records : List BTPTrustRecord} {r : BTPTrustRecord}
    (h : r ∈ (ofRecords records).values) : r ∈ records := by
  obtain ⟨⟨k, r⟩, hmem, rfl⟩ := List.mem_map.mp h
  exact (mem_ofRecords hmem).2

end RecordMap

end Btps
