import Btps.Trust.Record

/-!
# The trust file

`JsonTrustStore` keeps its records in one JSON file. The model keeps the parsed value of
that file: an array of records, an object of record arrays named by entity, or text that
`JSON.parse` rejects. A write goes to the file itself or to its `.tmp` sibling, which a
rename moves over the file; every write stamps the written file with the next time of
the clock, so a rename gives the file a modification time it never had before.
-/

namespace Btps

/-- The parsed contents of a trust file. -/
inductive TrustFile
  /-- A bare array of records, as a store without an entity name writes. -/
  | array (records : List BTPTrustRecord)
  /-- An object whose fields name record arrays, as a store with an entity name writes. -/
  | object (fields : List (List Char × List BTPTrustRecord))
  /-- Text that is not JSON. -/
  | malformed
  deriving DecidableEq, Repr

namespace TrustFile

/-- The value that `writeToFile` and `init` write: `{ [entityName]: records }` when the
store has an entity name, the bare array when it has none. -/
def ofRecords (entityName : List Char) (records : List BTPTrustRecord) : TrustFile :=
  if entityName.isEmpty then .array records else .object [(entityName, records)]

/-- What `init` iterates: `raw?.[entityName] || []` with an entity name, `raw` itself
without one. `none` is a value that `for...of` cannot iterate, or text that does not
parse. An entity name that names a property every array or object has (`length`,
`constructor`) is out of scope: the model reads only the file's own fields. -/
def select (entityName : List Char) : TrustFile → Option (List BTPTrustRecord)
  | .array records => some (if entityName.isEmpty then records else [])
  | .object fields =>
    if entityName.isEmpty then none else some ((fields.reverse.lookup entityName).getD [])
  | .malformed => none

/-- Every record the file holds, under any name. -/
def allRecords : TrustFile → List BTPTrustRecord
  | .array records => records
  | .object fields => fields.flatMap Prod.snd
  | .malformed => []

/-- What the store writes it reads back. -/
@[simp] theorem select_ofRecords (entityName : List Char) (records : List BTPTrustRecord) :
    (ofRecords entityName records).select entityName = some records := by
  by_cases h : entityName.isEmpty <;> simp [ofRecords, select, h]

/-- A file the store writes holds exactly the records it was given. -/
@[simp] theorem allRecords_ofRecords (entityName : List Char) (records : List BTPTrustRecord) :
    (ofRecords entityName records).allRecords = records := by
  by_cases h : entityName.isEmpty <;> simp [ofRecords, allRecords, h]

/-- A file the store writes parses. -/
@[simp] theorem ofRecords_ne_malformed (entityName : List Char) (records : List BTPTrustRecord) :
    ofRecords entityName records ≠ .malformed := by
  by_cases h : entityName.isEmpty <;> simp [ofRecords, h]

/-- The records `init` takes are a part of the file's records, in order. -/
theorem select_sublist {entityName : List Char} {f : TrustFile} {records : List BTPTrustRecord}
    (h : f.select entityName = some records) : List.Sublist records f.allRecords := by
  cases f with
  | array rs =>
    by_cases he : entityName.isEmpty <;> simp_all [select, allRecords]
  | object fields =>
    by_cases he : entityName.isEmpty
    · simp [select, he] at h
    · simp only [select, he, Bool.false_eq_true, if_false, Option.some.injEq] at h
      subst h
      cases hl : fields.reverse.lookup entityName with
      | none => exact List.nil_sublist _
      | some rs =>
        obtain ⟨l₁, l₂, hsplit, -⟩ := List.lookup_eq_some_iff.mp hl
        have hmem : (entityName, rs) ∈ fields := List.mem_reverse.mp (by simp [hsplit])
        exact List.sublist_flatten_of_mem (List.mem_map_of_mem Prod.snd hmem)
  | malformed => simp [select] at h

/-- The records `init` takes are records of the file. -/
theorem subset_allRecords {entityName : List Char} {f : TrustFile} {records : List BTPTrustRecord}
    (h : f.select entityName = some records) : ∀ r ∈ records, r ∈ f.allRecords :=
  fun _ hr => (select_sublist h).subset hr

end TrustFile

/-- A file on disk: its parsed contents and its modification time. -/
structure StoredFile where
  contents : TrustFile
  mtime : Nat
  deriving DecidableEq, Repr

/-- The part of the disk the store touches. -/
structure FileSystem where
  /-- The trust file at `filePath`. -/
  file : Option StoredFile
  /-- The file `filePath + '.tmp'`. -/
  tmp : Option StoredFile
  /-- Whether the lock of `filePath` is held. -/
  locked : Bool
  /-- The modification time the next write gets. -/
  clock : Nat
  deriving DecidableEq, Repr

namespace FileSystem

/-- `fs.writeFile(filePath, ...)`. The file takes the clock as its modification time and
the clock advances, so no two writes share a time, where a real `mtimeMs` can repeat. -/
def writeFile (fs : FileSystem) (contents : TrustFile) : FileSystem :=
  { fs with file := some ⟨contents, fs.clock⟩, clock := fs.clock + 1 }

/-- `fs.writeFile(tmpPath, ...)`. The `.tmp` file takes the clock as its modification
time and the clock advances: every write gives a time no store has seen, which is what lets
`reloadIfChanged` notice it. A real `mtimeMs` is coarse and can repeat. -/
def writeTmp (fs : FileSystem) (contents : TrustFile) : FileSystem :=
  { fs with tmp := some ⟨contents, fs.clock⟩, clock := fs.clock + 1 }

/-- `fs.rename(tmpPath, filePath)` of a present `.tmp` file: the file takes its contents
and its modification time. -/
def rename (fs : FileSystem) (tmp : StoredFile) : FileSystem :=
  { fs with file := some tmp, tmp := none }

/-- The map that a store with this entity name loads from the file, if it loads. -/
def load (fs : FileSystem) (entityName : List Char) : Option RecordMap :=
  fs.file.bind fun f => (f.contents.select entityName).map RecordMap.ofRecords

/-- Writing the file gives it the contents, under the clock's time. -/
@[simp] theorem writeFile_file (fs : FileSystem) (contents : TrustFile) :
    (fs.writeFile contents).file = some ⟨contents, fs.clock⟩ := rfl

/-- Writing the file leaves the `.tmp` file. -/
@[simp] theorem writeFile_tmp (fs : FileSystem) (contents : TrustFile) :
    (fs.writeFile contents).tmp = fs.tmp := rfl

/-- Writing the file leaves the lock. -/
@[simp] theorem writeFile_locked (fs : FileSystem) (contents : TrustFile) :
    (fs.writeFile contents).locked = fs.locked := rfl

/-- Writing the `.tmp` file leaves the file. -/
@[simp] theorem writeTmp_file (fs : FileSystem) (contents : TrustFile) :
    (fs.writeTmp contents).file = fs.file := rfl

/-- Writing the `.tmp` file gives it the contents, under the clock's time. -/
@[simp] theorem writeTmp_tmp (fs : FileSystem) (contents : TrustFile) :
    (fs.writeTmp contents).tmp = some ⟨contents, fs.clock⟩ := rfl

/-- Writing the `.tmp` file leaves the lock. -/
@[simp] theorem writeTmp_locked (fs : FileSystem) (contents : TrustFile) :
    (fs.writeTmp contents).locked = fs.locked := rfl

/-- The rename puts the `.tmp` file, with its time, in the file's place. -/
@[simp] theorem rename_file (fs : FileSystem) (tmp : StoredFile) :
    (fs.rename tmp).file = some tmp := rfl

/-- The rename leaves no `.tmp` file. -/
@[simp] theorem rename_tmp (fs : FileSystem) (tmp : StoredFile) : (fs.rename tmp).tmp = none := rfl

/-- The rename leaves the lock. -/
@[simp] theorem rename_locked (fs : FileSystem) (tmp : StoredFile) :
    (fs.rename tmp).locked = fs.locked := rfl

/-- The file loads to `R` when it exists, `init` can iterate what it selects, and those records
make `R`. -/
theorem load_eq_some {fs : FileSystem} {entityName : List Char} {R : RecordMap} :
    fs.load entityName = some R ↔ ∃ f records, fs.file = some f ∧
      f.contents.select entityName = some records ∧ RecordMap.ofRecords records = R := by
  simp only [load, Option.bind_eq_some, Option.map_eq_some']
  constructor
  · rintro ⟨f, hf, records, hsel, hR⟩
    exact ⟨f, records, hf, hsel, hR⟩
  · rintro ⟨f, records, hf, hsel, hR⟩
    exact ⟨f, hf, records, hsel, hR⟩

end FileSystem

end Btps
