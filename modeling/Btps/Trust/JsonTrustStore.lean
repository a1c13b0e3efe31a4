import Btps.Trust.Program

/-!
# `JsonTrustStore`

The methods of the JSON trust store, each a `Prog` that follows the `async` method
statement by statement, with an `await` where the source has one. The map counts as
loaded once it holds a record, so a method that finds it empty runs `init` first.
`create`, `update` and `delete` mark the store dirty and arm the debounced write.
`getById` and `getAll` reload the file when its modification time has moved since the
store last wrote or reloaded it. `computeTrustId` is imported from outside this file and
is a parameter here.
-/

namespace Btps

/-- Modelled from the spec: the options of a trust store, with the fields
`JsonTrustStore` reads. A `connection` that is not a string is `none`; an absent
`entityName` is the empty name. -/
structure TrustStoreOptions where
  connection : Option (List Char)
  entityName : List Char
  deriving DecidableEq, Repr

/-- The message of the constructor for a connection that is not a file path. -/
def connectionMessage : List Char := "JSON TrustStore expects a file path as connection".toList

/-- The message of `create` for a record that carries an id. -/
def createIdMessage : List Char := "Record passed to create() must not include an id".toList

/-- The message of `create` for an id that is already stored. -/
def alreadyExistsMessage (senderId receiverId : List Char) : List Char :=
  "Trust record already exists for ".toList ++ senderId ++ " → ".toList ++ receiverId

/-- The message of `update` for an id that is not stored: the patch's parties, printed
as `undefined` when the patch leaves them out. -/
def noRecordMessage (senderId receiverId : Option (List Char)) : List Char :=
  "No trust record found for ".toList ++ senderId.getD "undefined".toList ++ " → ".toList ++
    receiverId.getD "undefined".toList

/-- The constructor: a file path is required, and the store starts fresh. -/
def JsonTrustStore.construct (options : TrustStoreOptions) : Except StoreError JsonTrustStore :=
  match options.connection with
  | some _ => .ok .fresh
  | none => .error (.error connectionMessage)

section Methods

variable (entityName : List Char)

open Prog

/-- `writeToFile`: a clean store returns at once; a dirty one clears `dirty`, takes the
lock, writes its records to the `.tmp` file, renames it over the file, keeps the file's
new modification time, and releases the lock in every case. -/
def writeToFile : Prog Unit := do
  if !(← getStore).dirty then pure ()
  else
    modifyStore fun s => { s with dirty := false }
    request .lock
    tryFinally
      (do
        let records := (← getStore).recordMap.values
        request (.writeTmp (.ofRecords entityName records))
        request .rename
        let mtime ← request .stat
        modifyStore fun s => { s with lastChangedMtime := mtime })
      (request .release)

/-- `init`: creates the file with no records when it is missing, parses it, clears the
map and sets every record under its id. -/
def init : Prog Unit := do
  (if !(← existsSync) then request (.writeFile (.ofRecords entityName [])) else pure ())
  let raw ← request .readFile
  (if raw = .malformed then throw .syntaxError else pure ())
  modifyStore fun s => { s with recordMap := RecordMap.empty }
  match raw.select entityName with
  | some records => modifyStore fun s => { s with recordMap := RecordMap.ofRecords records }
  | none => throw .notIterable

/-- `flushAndReload`: writes, clears the map, and fills it again from the file. -/
def flushAndReload : Prog Unit := do
  await (writeToFile entityName)
  modifyStore fun s => { s with recordMap := RecordMap.empty }
  await (init entityName)

/-- `reloadIfChanged`: a file whose modification time differs from the one the store
keeps is flushed and reloaded, and its time, read before the flush, is kept. -/
def reloadIfChanged : Prog Unit := do
  let mtime ← request .stat
  if mtime ≠ (← getStore).lastChangedMtime then
    await (flushAndReload entityName)
    modifyStore fun s => { s with lastChangedMtime := mtime }
  else pure ()

/-- `writeDebounced()`: arms the debounce timer. -/
def writeDebounced : Prog Unit := modifyStore fun s => { s with writePending := true }

/-- `getById`. -/
def getById (computedId : List Char) : Prog (Option BTPTrustRecord) := do
  (if (← getStore).recordMap.size = 0 then await (init entityName) else pure ())
  await (reloadIfChanged entityName)
  return (← getStore).recordMap.get computedId

variable (computeTrustId : List Char → List Char → List Char)

/-- `create`: refuses a record with an id and an id already stored, then sets
`{ id, ...record }` under the given id or the computed one. -/
def create (record : TrustRecordInput) (computedId : Option (List Char)) :
    Prog BTPTrustRecord := do
  (if record.id.isSome then throw (.error createIdMessage) else pure ())
  let id := computedId.getD (computeTrustId record.senderId record.receiverId)
  (if (← await (getById entityName id)).isSome then
    throw (.error (alreadyExistsMessage record.senderId record.receiverId)) else pure ())
  let newRecord := record.withId id
  modifyStore fun s => { s with recordMap := s.recordMap.set id newRecord }
  modifyStore fun s => { s with dirty := true }
  writeDebounced
  return newRecord

/-- `update`: merges the patch into the stored record and sets the result under the
same id. -/
def update (computedId : List Char) (patch : TrustRecordPatch) : Prog BTPTrustRecord := do
  match ← await (getById entityName computedId) with
  | none => throw (.error (noRecordMessage patch.senderId patch.receiverId))
  | some record =>
    let updated := record.merge patch
    modifyStore fun s => { s with recordMap := s.recordMap.set computedId updated }
    modifyStore fun s => { s with dirty := true }
    writeDebounced
    return updated

/-- `delete`: removes the id, and marks the store dirty when it was present. -/
def delete (computedId : List Char) : Prog Unit := do
  (if (← getStore).recordMap.size = 0 then await (init entityName) else pure ())
  let (recordMap, deleted) := (← getStore).recordMap.delete computedId
  modifyStore fun s => { s with recordMap := recordMap }
  if deleted then
    modifyStore fun s => { s with dirty := true }
    writeDebounced
  else pure ()

/-- `getAll`: every record, or those of one receiver when `receiverId` is a non-empty
string. -/
def getAll (receiverId : Option (List Char)) : Prog (List BTPTrustRecord) := do
  (if (← getStore).recordMap.size = 0 then await (init entityName) else pure ())
  await (reloadIfChanged entityName)
  let all := (← getStore).recordMap.values
  return match receiverId with
    | some r => if r.isEmpty then all else all.filter (·.receiverId == r)
    | none => all

/-- `flushNow`. -/
def flushNow : Prog Unit := await (writeToFile entityName)

/-- The debounce timer fires: the pending write starts. -/
def debouncedWrite : Prog Unit := do
  modifyStore fun s => { s with writePending := false }
  writeToFile entityName

/-- The `SIGINT` and `SIGTERM` handler, up to `process.exit()`. -/
def signalFlush : Prog Unit := await (writeToFile entityName)

end Methods

/-- A call of the store's API, or an event of its timer or its signal handlers. -/
inductive TrustStoreCall
  | getById (computedId : List Char)
  | create (record : TrustRecordInput) (computedId : Option (List Char))
  | update (computedId : List Char) (patch : TrustRecordPatch)
  | delete (computedId : List Char)
  | getAll (receiverId : Option (List Char))
  | flushNow
  | flushAndReload
  /-- The debounce timer fires, if it is armed. -/
  | debouncedWrite
  /-- `SIGINT` or `SIGTERM` arrives. -/
  | signalFlush
  deriving DecidableEq, Repr

/-- What a call returns. -/
inductive TrustStoreReply
  | found (record : Option BTPTrustRecord)
  | record (record : BTPTrustRecord)
  | records (records : List BTPTrustRecord)
  | unit
  deriving DecidableEq, Repr

/-- The program of a call. The timer runs only when it is armed. -/
def TrustStoreCall.prog (entityName : List Char)
    (computeTrustId : List Char → List Char → List Char) :
    TrustStoreCall → Prog TrustStoreReply
  | .getById id => .found <$> Btps.getById entityName id
  | .create record id => .record <$> Btps.create entityName computeTrustId record id
  | .update id patch => .record <$> Btps.update entityName id patch
  | .delete id => (fun _ => .unit) <$> Btps.delete entityName id
  | .getAll receiverId => .records <$> Btps.getAll entityName receiverId
  | .flushNow => (fun _ => .unit) <$> Btps.flushNow entityName
  | .flushAndReload => (fun _ => .unit) <$> Btps.flushAndReload entityName
  | .debouncedWrite => do
    (if (← Prog.getStore).writePending then Btps.debouncedWrite entityName else pure ())
    return .unit
  | .signalFlush => (fun _ => .unit) <$> Btps.signalFlush entityName

/-- Calls awaited one at a time: the result of each, and the world after the last. -/
def runCalls (entityName : List Char) (computeTrustId : List Char → List Char → List Char) :
    List TrustStoreCall → World → List Bool → List (Except StoreError TrustStoreReply) × World
  | [], w, _ => ([], w)
  | c :: cs, w, faults =>
    let o := (c.prog entityName computeTrustId).run w faults
    let rest := runCalls entityName computeTrustId cs o.world o.faults
    (o.result :: rest.1, rest.2)

end Btps
