import Btps.Trust.Persistence
import Btps.Trust.Discipline

/-!
# Stores sharing one file

Under every schedule of any number of stores over one file, the lock keeps the writers
apart. At most one call at a time is between a successful `lock` and its release, and
only that call writes the `.tmp` file or renames it. The lock is taken only while some
call holds it, so it is free again once every call has ended. The file stays
one that `init` can read, since every write puts a whole record collection under the
entity name, whether `init` writes the file itself or `writeToFile` writes the `.tmp`
file and renames it over the file. A clean store that then runs `flushAndReload` and `getAll` with nothing
in between gets exactly the records the file holds.

The stores do not merge what they write. `writeToFile` replaces the file with the
store's map, and `flushAndReload` writes before it reloads, so a record that another
store created and wrote is lost when the first store writes. A reload can also finish
before the store's own write renames the file, and the store then keeps the reloaded map
under the new file's modification time. With one store, `writeToFile` clears `dirty`
before it awaits the lock, so `flushNow` can return while the debounced write still waits
for the lock.
-/

namespace Btps

namespace IoRequest

/-- After a request, the `.tmp` file is the one before or what the request wrote. -/
theorem mem_perform_tmp {req : IoRequest β} {fs : FileSystem} {f : StoredFile}
    (h : f ∈ (req.perform fs).2.tmp) : f ∈ fs.tmp ∨ f.contents ∈ req.written := by
  cases req with
  | writeTmp c =>
    cases Option.some.inj h
    exact Or.inr rfl
  | lock => simp only [perform] at h; split at h <;> exact Or.inl h
  | rename =>
    simp only [perform] at h
    split at h
    · simp at h
    · exact Or.inl h
  | _ => exact Or.inl h

/-- No request removes the file. -/
theorem perform_file_isSome (req : IoRequest β) {fs : FileSystem} (h : fs.file.isSome) :
    (req.perform fs).2.file.isSome := by
  cases req <;> simp only [perform] <;> (try split) <;> simp [h]

/-- Only `lock` and `release` change whether the lock is taken. -/
theorem perform_locked {req : IoRequest β} (h : req.movesLock = false) (fs : FileSystem) :
    (req.perform fs).2.locked = fs.locked := by
  cases req <;> simp_all [movesLock, perform]
  split <;> rfl

end IoRequest

/-! ### The lock under every schedule -/

/-- The call awaits a request that only the holder of the lock makes: the `.tmp` write,
the rename, or the release. -/
def Prog.awaitsLocked : Prog α → Bool
  | .io req _ => req.needsLock
  | _ => false

/-- `holder` is the call that holds the lock, if one does: the lock is then taken, and
every call keeps the discipline, holding the lock exactly when it is that call. -/
structure LockHolder (entityName : List Char) (sys : System) (holder : Option Nat) : Prop where
  locked : holder.isSome → sys.fs.locked = true
  started : ∀ t ∈ holder, t < sys.tasks.length
  tasks : ∀ t (task : Task), sys.tasks[t]? = some task →
    task.prog.Disciplined entityName (fun _ => false) (decide (holder = some t))

section Schedules

variable {entityName : List Char} {computeTrustId : List Char → List Char → List Char}
  {sys : System} {holder : Option Nat}

/-- Replacing what is left of call `t` keeps a holder of the lock when the new program
holds the lock as `holder'` says, and every other call holds it as before. -/
theorem LockHolder.set (h : LockHolder entityName sys holder) {t : Nat}
    (ht : t < sys.tasks.length) {task : Task} {stores : List JsonTrustStore} {fs : FileSystem}
    {holder' : Option Nat} (hlocked : holder'.isSome → fs.locked = true)
    (hstarted : ∀ t' ∈ holder', t' < sys.tasks.length)
    (hself : task.prog.Disciplined entityName (fun _ => false) (decide (holder' = some t)))
    (hother : ∀ t', t' ≠ t → decide (holder' = some t') = decide (holder = some t')) :
    LockHolder entityName ⟨stores, fs, sys.tasks.set t task⟩ holder' := by
  refine ⟨hlocked, by simpa using hstarted, fun t' task' ht' => ?_⟩
  by_cases htt : t' = t
  · subst htt
    rw [List.getElem?_set_self ht] at ht'
    cases ht'
    exact hself
  · rw [List.getElem?_set_ne (Ne.symm htt)] at ht'
    rw [hother t' htt]
    exact h.tasks t' task' ht'

/-- A request completed for call `t` passes the lock on as the call's discipline says. -/
theorem LockHolder.effect (h : LockHolder entityName sys holder) {t owner : Nat}
    {req : IoRequest β} {k : Except StoreError β → Prog TrustStoreReply}
    (htask : sys.tasks[t]? = some ⟨owner, .io req k⟩) {holder' : Option Nat}
    (hlocked : holder'.isSome → (req.perform sys.fs).2.locked = true)
    (hstarted : ∀ t' ∈ holder', t' < sys.tasks.length)
    (hself : decide (holder' = some t) =
      req.holdsAfter (decide (holder = some t)) (req.perform sys.fs).1)
    (hother : ∀ t', t' ≠ t → decide (holder' = some t') = decide (holder = some t')) :
    LockHolder entityName ⟨sys.stores, (req.perform sys.fs).2,
      sys.tasks.set t ⟨owner, .pause (k (req.perform sys.fs).1)⟩⟩ holder' :=
  h.set (List.getElem?_eq_some_iff.mp htask).1 hlocked hstarted
    (by rw [hself]; exact (h.tasks t _ htask).2 _) hother

/-- Starting a call keeps a holder of the lock: the new call does not hold it. -/
theorem LockHolder.push (h : LockHolder entityName sys holder) {stores : List JsonTrustStore}
    {task : Task} (hnew : task.prog.Disciplined entityName (fun _ => false) false) :
    LockHolder entityName ⟨stores, sys.fs, sys.tasks ++ [task]⟩ holder := by
  refine ⟨h.locked, fun t ht => by simpa using Nat.lt_succ_of_lt (h.started t ht),
    fun t task' ht => ?_⟩
  rcases Nat.lt_or_ge t sys.tasks.length with hlt | hge
  · rw [List.getElem?_append_left hlt] at ht
    exact h.tasks t task' ht
  · rw [List.getElem?_append_right hge] at ht
    obtain ⟨hzero, rfl⟩ : t - sys.tasks.length = 0 ∧ task = task' := by
      simpa [List.getElem?_cons, List.getElem?_eq_some_iff] using ht
    have hnot : holder ≠ some t := fun hh => absurd (h.started t hh) (by omega)
    simpa [hnot] using hnew

/-- One event keeps a holder of the lock, and keeps the lock taken only while some call
holds it. -/
theorem LockHolder.step (h : LockHolder entityName sys holder) {sys' : System} {e : Event}
    (hstep : sys.step entityName computeTrustId e = some sys') :
    ∃ holder', LockHolder entityName sys' holder' ∧
      ((sys.fs.locked = true → holder.isSome) → sys'.fs.locked = true → holder'.isSome) := by
  cases e with
  | call owner c =>
    obtain ⟨s, -, rfl⟩ := System.step_call_eq_some hstep
    exact ⟨holder, h.push ((TrustStoreCall.prog_disciplined entityName computeTrustId c).settle
      s sys.fs), id⟩
  | effect t =>
    obtain ⟨owner, β, req, k, htask, rfl⟩ := System.step_effect_eq_some hstep
    have hd := (h.tasks t _ htask).1
    have ht := (List.getElem?_eq_some_iff.mp htask).1
    cases hmoves : req.movesLock
    · have hfs := IoRequest.perform_locked hmoves sys.fs
      exact ⟨holder, h.effect htask (hfs ▸ h.locked) h.started
        (IoRequest.holdsAfter_of_movesLock hmoves _ _).symm fun _ _ => rfl,
        fun hexact hl => hexact (hfs ▸ hl)⟩
    cases req with
    | lock =>
      by_cases hl : sys.fs.locked = true
      · exact ⟨holder, h.effect htask (fun _ => by simp [IoRequest.perform, hl])
          h.started (by simpa [IoRequest.perform, hl, IoRequest.holdsAfter] using hd)
          fun _ _ => rfl, fun hexact _ => hexact hl⟩
      · have hnone : holder = none := Option.not_isSome_iff_eq_none.mp fun hs => hl (h.locked hs)
        exact ⟨some t, h.effect htask (by simp [IoRequest.perform, hl]) (by simpa using ht)
          (by simp [IoRequest.perform, hl, IoRequest.holdsAfter, Except.toBool])
          (fun t' ht' => by simp [hnone, Ne.symm ht']), fun _ _ => rfl⟩
    | release =>
      have hsome : holder = some t := by simpa [IoRequest.Allowed] using hd
      exact ⟨none, h.effect htask nofun nofun (by simp [IoRequest.holdsAfter])
        (fun t' ht' => by simp [hsome, Ne.symm ht']), fun _ hl => by
          simp [IoRequest.perform] at hl⟩
    | _ => cases hmoves
  | resume t =>
    obtain ⟨owner, p, s, htask, -, rfl⟩ := System.step_resume_eq_some hstep
    have hp : p.Disciplined entityName (fun _ => false) (decide (holder = some t)) :=
      h.tasks t _ htask
    exact ⟨holder, h.set (List.getElem?_eq_some_iff.mp htask).1 h.locked h.started
      (hp.settle s sys.fs) fun _ _ => rfl, id⟩

/-- Every schedule keeps a holder of the lock, and keeps the lock taken only while some call
holds it. -/
theorem LockHolder.run (h : LockHolder entityName sys holder) {sys' : System} {es : List Event}
    (hrun : System.run entityName computeTrustId es sys = some sys') :
    ∃ holder', LockHolder entityName sys' holder' ∧
      ((sys.fs.locked = true → holder.isSome) → sys'.fs.locked = true → holder'.isSome) := by
  refine System.run_preserves (P := fun sys' => ∃ holder', LockHolder entityName sys' holder' ∧
    ((sys.fs.locked = true → holder.isSome) → sys'.fs.locked = true → holder'.isSome))
    (fun ⟨holder₁, h₁, hexact₁⟩ hstep => ?_) ⟨holder, h, id⟩ hrun
  obtain ⟨holder', h', hexact'⟩ := h₁.step hstep
  exact ⟨holder', h', hexact' ∘ hexact₁⟩

/-- A call that awaits a request that needs the lock is the holder, and the lock is taken. -/
theorem LockHolder.awaitsLocked (h : LockHolder entityName sys holder) {t : Nat} {task : Task}
    (htask : sys.tasks[t]? = some task) (hawaits : task.prog.awaitsLocked = true) :
    holder = some t ∧ sys.fs.locked = true := by
  obtain ⟨owner, prog⟩ := task
  cases prog with
  | io req k =>
    have hheld := (h.tasks t _ htask).1.held_of_needsLock hawaits
    have hholder : holder = some t := by simpa using hheld
    exact ⟨hholder, h.locked (by simp [hholder])⟩
  | _ => cases hawaits

/-- The holder of the lock has not ended: every call gives the lock back before it ends. -/
theorem LockHolder.holder_not_ended {t : Nat} (h : LockHolder entityName sys (some t))
    {task : Task} (ht : sys.tasks[t]? = some task) : task.prog.ended = false := by
  have hd := h.tasks t task ht
  obtain ⟨_, p⟩ := task
  cases p with
  | done r => simp [Prog.Disciplined] at hd
  | _ => rfl

/-- From no call in flight and a free lock, every schedule leads to a system with a holder
of the lock whenever the lock is taken. -/
theorem LockHolder.reachable_exact {stores : List JsonTrustStore} {fs : FileSystem}
    (hunlocked : fs.locked = false)
    (hreach : System.Reachable entityName computeTrustId ⟨stores, fs, []⟩ sys) :
    ∃ holder, LockHolder entityName sys holder ∧ (sys.fs.locked = true → holder.isSome) := by
  obtain ⟨es, hrun⟩ := hreach
  obtain ⟨holder, h, hexact⟩ := LockHolder.run
    (⟨nofun, nofun, nofun⟩ : LockHolder entityName ⟨stores, fs, []⟩ none) hrun
  exact ⟨holder, h, hexact (by simp [hunlocked])⟩

/-- When the lock is taken only while some call holds it, it is free once every call has
ended. -/
theorem LockHolder.unlocked_of_idle (h : LockHolder entityName sys holder)
    (hexact : sys.fs.locked = true → holder.isSome)
    (hidle : ∀ task ∈ sys.tasks, task.prog.ended = true) : sys.fs.locked = false := by
  cases hl : sys.fs.locked
  · rfl
  · obtain ⟨t, rfl⟩ := Option.isSome_iff_exists.mp (hexact hl)
    have hended := hidle _ (List.getElem_mem (h.started t rfl))
    rw [h.holder_not_ended (List.getElem?_eq_getElem _)] at hended
    cases hended

/-! ### The file under every schedule -/

/-- What every schedule keeps: the file exists and `init` can read it, so can it read a
`.tmp` file, and some call, or none, holds the lock. -/
structure SharedFileWellFormed (entityName : List Char) (sys : System) : Prop where
  file : ∃ f ∈ sys.fs.file, f.contents.Loads entityName
  tmp : ∀ f ∈ sys.fs.tmp, f.contents.Loads entityName
  lock : ∃ holder, LockHolder entityName sys holder

/-- A disk request that a call in flight makes keeps the file and the `.tmp` file
readable. -/
theorem SharedFileWellFormed.perform (h : SharedFileWellFormed entityName sys)
    {req : IoRequest β} (hreq : ∀ c ∈ req.written, c.Loads entityName) :
    (∃ f ∈ (req.perform sys.fs).2.file, f.contents.Loads entityName) ∧
      ∀ f ∈ (req.perform sys.fs).2.tmp, f.contents.Loads entityName := by
  obtain ⟨f₀, hf₀, -⟩ := h.file
  refine ⟨?_, fun f hf => (IoRequest.mem_perform_tmp hf).elim (h.tmp f) (hreq _)⟩
  obtain ⟨f, hf⟩ := Option.isSome_iff_exists.mp
    (req.perform_file_isSome (Option.isSome_iff_exists.mpr ⟨f₀, hf₀⟩))
  refine ⟨f, hf, ?_⟩
  rcases IoRequest.mem_respond_file (show f ∈ (req.respond false sys.fs).2.file from hf) with
    hold | ⟨-, htmp⟩ | hnew
  exacts [h.file.elim fun f' ⟨hf', hl⟩ => by cases Option.mem_unique hold hf'; exact hl,
    h.tmp f htmp, hreq _ hnew]

/-- One event keeps the file readable. -/
theorem SharedFileWellFormed.step {sys' : System} (h : SharedFileWellFormed entityName sys)
    {e : Event} (hstep : sys.step entityName computeTrustId e = some sys') :
    SharedFileWellFormed entityName sys' := by
  obtain ⟨holder, hholder⟩ := h.lock
  have hlock := (hholder.step hstep).imp fun _ => And.left
  cases e with
  | call owner c =>
    obtain ⟨s, -, rfl⟩ := System.step_call_eq_some hstep
    exact ⟨h.file, h.tmp, hlock⟩
  | effect t =>
    obtain ⟨owner, β, req, k, htask, rfl⟩ := System.step_effect_eq_some hstep
    obtain ⟨hfile, htmp⟩ := h.perform (hholder.tasks t _ htask).1.written
    exact ⟨hfile, htmp, hlock⟩
  | resume t =>
    obtain ⟨owner, p, s, -, -, rfl⟩ := System.step_resume_eq_some hstep
    exact ⟨h.file, h.tmp, hlock⟩

/-- Every schedule keeps the file readable. -/
theorem SharedFileWellFormed.run {sys' : System} (h : SharedFileWellFormed entityName sys)
    {es : List Event} (hrun : System.run entityName computeTrustId es sys = some sys') :
    SharedFileWellFormed entityName sys' :=
  System.run_preserves (fun h hstep => h.step hstep) h hrun

end Schedules

/-- Stores over one file, under any schedule of their calls, timers and signal handlers
from a point where no call is in flight: at most one call at a time awaits a `.tmp`
write, a rename or a release, and while one does the lock is taken. No two writers'
`.tmp` writes and renames interleave. -/
theorem lock_excludes_writers (entityName : List Char)
    (computeTrustId : List Char → List Char → List Char) (stores : List JsonTrustStore)
    (fs : FileSystem) {sys : System}
    (hreach : System.Reachable entityName computeTrustId ⟨stores, fs, []⟩ sys)
    {t₁ t₂ : Nat} {task₁ task₂ : Task} (h₁ : sys.tasks[t₁]? = some task₁)
    (h₂ : sys.tasks[t₂]? = some task₂) (hawaits₁ : task₁.prog.awaitsLocked = true)
    (hawaits₂ : task₂.prog.awaitsLocked = true) :
    t₁ = t₂ ∧ sys.fs.locked = true := by
  obtain ⟨es, hrun⟩ := hreach
  obtain ⟨holder, h, -⟩ := LockHolder.run
    (⟨nofun, nofun, nofun⟩ : LockHolder entityName ⟨stores, fs, []⟩ none) hrun
  obtain ⟨hholder₁, hlocked⟩ := h.awaitsLocked h₁ hawaits₁
  obtain ⟨hholder₂, -⟩ := h.awaitsLocked h₂ hawaits₂
  exact ⟨Option.some.inj (hholder₁.symm.trans hholder₂), hlocked⟩

/-- One store: a create runs to its end, the debounce timer fires, and its write takes the
lock and awaits the `.tmp` write. -/
theorem lock_excludes_writers_debounced :
    let computeTrustId := fun senderId receiverId : List Char => senderId ++ '→' :: receiverId
    let sys₀ : System := ⟨[.fresh], ⟨some ⟨.array [], 1⟩, none, false, 2⟩, []⟩
    let es : List Event :=
      [.call 0 (.create ⟨none, "alice$a.example".toList, "bob$b.example".toList, .accepted,
          "2025-01-01".toList, none, none, none⟩ none),
        .effect 0, .resume 0, .resume 0, .effect 0, .resume 0, .resume 0, .effect 0, .resume 0,
        .resume 0, .resume 0, .resume 0, .resume 0, .call 0 .debouncedWrite, .effect 1, .resume 1]
    ∃ sys, System.run [] computeTrustId es sys₀ = some sys ∧ ∃ task, sys.tasks[1]? = some task ∧
      task.prog.awaitsLocked = true ∧ sys.fs.locked = true := by
  intro computeTrustId sys₀ es
  have hrun := (Option.getD_of_ne_none (Option.ne_none_iff_isSome.mpr
    (by decide : (System.run [] computeTrustId es sys₀).isSome)) sys₀).symm
  have h₁ := (Option.getD_of_ne_none (Option.ne_none_iff_isSome.mpr (by decide :
    ((System.run [] computeTrustId es sys₀).getD sys₀).tasks[1]?.isSome))
    (⟨0, .done (.ok .unit)⟩ : Task)).symm
  have hawaits : ((((System.run [] computeTrustId es sys₀).getD sys₀).tasks[1]?).getD
      (⟨0, .done (.ok .unit)⟩ : Task)).prog.awaitsLocked = true := by decide
  exact ⟨_, hrun, _, h₁, hawaits,
    (lock_excludes_writers [] computeTrustId _ _ ⟨es, hrun⟩ h₁ h₁ hawaits hawaits).2⟩

/-- Any number of stores over one file with the lock free: under every schedule, once every
call has ended, whether it returned or threw, the lock is free again. -/
theorem lock_free_when_idle (entityName : List Char)
    (computeTrustId : List Char → List Char → List Char) (stores : List JsonTrustStore)
    {fs : FileSystem} (hunlocked : fs.locked = false) {sys : System}
    (hreach : System.Reachable entityName computeTrustId ⟨stores, fs, []⟩ sys)
    (hidle : ∀ task ∈ sys.tasks, task.prog.ended = true) :
    sys.fs.locked = false := by
  obtain ⟨holder, h, hexact⟩ := LockHolder.reachable_exact hunlocked hreach
  exact h.unlocked_of_idle hexact hidle

/-- One store: a create runs to its end, then `flushNow()` takes the lock, writes, renames
and gives the lock back. -/
theorem lock_free_when_idle_after_flush :
    let computeTrustId := fun senderId receiverId : List Char => senderId ++ '→' :: receiverId
    let sys₀ : System := ⟨[.fresh], ⟨some ⟨.array [], 1⟩, none, false, 2⟩, []⟩
    let es : List Event :=
      [.call 0 (.create ⟨none, "alice$a.example".toList, "bob$b.example".toList, .accepted,
          "2025-01-01".toList, none, none, none⟩ none),
        .effect 0, .resume 0, .resume 0, .effect 0, .resume 0, .resume 0, .effect 0, .resume 0,
        .resume 0, .resume 0, .resume 0, .resume 0,
        .call 0 .flushNow, .effect 1, .resume 1, .effect 1, .resume 1, .effect 1, .resume 1,
        .effect 1, .resume 1, .effect 1, .resume 1, .resume 1]
    ∃ sys, System.run [] computeTrustId es sys₀ = some sys ∧
      (∀ task ∈ sys.tasks, task.prog.ended = true) ∧ sys.fs.locked = false := by
  intro computeTrustId sys₀ es
  have hrun := (Option.getD_of_ne_none (Option.ne_none_iff_isSome.mpr
    (by decide : (System.run [] computeTrustId es sys₀).isSome)) sys₀).symm
  have hidle : ∀ task ∈ ((System.run [] computeTrustId es sys₀).getD sys₀).tasks,
      task.prog.ended = true := by decide
  exact ⟨_, hrun, hidle, lock_free_when_idle [] computeTrustId _ rfl ⟨es, hrun⟩ hidle⟩

/-! ### A clean store rereads the file -/

section Reread

variable {entityName : List Char} {w : World} {R : RecordMap}

open Prog

/-- A clean store's `flushAndReload` writes nothing and sets the map to the file's. -/
theorem flushAndReload_run_of_clean (hclean : w.store.dirty = false)
    (hload : w.fs.load entityName = some R) :
    (flushAndReload entityName).run w [] =
      ⟨.ok (), { w with store := { w.store with recordMap := R } }, []⟩ := by
  have hinit : ∀ s, (init entityName).run ⟨s, w.fs⟩ [] =
      ⟨.ok (), ⟨{ s with recordMap := R }, w.fs⟩, []⟩ :=
    fun s => init_run_of_load (w := ⟨s, w.fs⟩) hload
  simp [flushAndReload, writeToFile, run_bind, hclean, hinit]

/-- A clean store that holds the file's map returns its records from `getAll()`, whether
or not it reloads. -/
theorem getAll_run_of_clean (hclean : w.store.dirty = false) (hm : w.store.recordMap = R)
    (hload : w.fs.load entityName = some R) :
    ((getAll entityName none).run w []).result = .ok R.values := by
  subst hm
  obtain ⟨f, records, hf, -, -⟩ := FileSystem.load_eq_some.mp hload
  have hinit : (init entityName).run w [] = ⟨.ok (), w, []⟩ := init_run_of_load hload
  by_cases hs : w.store.recordMap.size = 0 <;>
    by_cases hL : f.mtime = w.store.lastChangedMtime <;>
    simp [getAll, reloadIfChanged, run_bind, hinit, hf, IoRequest.respond, IoRequest.perform, hs,
      hL, flushAndReload_run_of_clean hclean hload]

/-- `flushAndReload()` and then `getAll()` on a clean store return the file's records. -/
theorem runCalls_reread (computeTrustId : List Char → List Char → List Char)
    {s : JsonTrustStore} {fs : FileSystem} (hclean : s.dirty = false)
    (hload : fs.load entityName = some R) :
    (runCalls entityName computeTrustId [.flushAndReload, .getAll none] ⟨s, fs⟩ []).1 =
      [.ok .unit, .ok (.records R.values)] := by
  simp [runCalls, TrustStoreCall.prog, flushAndReload_run_of_clean (w := ⟨s, fs⟩) hclean hload,
    getAll_run_of_clean (w := ⟨{ s with recordMap := R }, fs⟩) hclean rfl hload, Except.map]

end Reread

/-! ### Stores sharing a file -/

/-- Stores over one file that `init` can read, with no call in flight, under any schedule
of their calls, timers and signal handlers: the file stays one that loads, and a clean
store whose `flushAndReload()` and then `getAll()` run with no other event in between
gets exactly the records of the map the file loads to. -/
theorem file_loads_and_rereads (entityName : List Char)
    (computeTrustId : List Char → List Char → List Char) (stores : List JsonTrustStore)
    {fs : FileSystem} (hfile : ∃ f ∈ fs.file, f.contents.Loads entityName)
    (htmp : ∀ f ∈ fs.tmp, f.contents.Loads entityName) {sys : System}
    (hreach : System.Reachable entityName computeTrustId ⟨stores, fs, []⟩ sys) :
    (∃ R, sys.fs.load entityName = some R) ∧
      ∀ owner s R, sys.stores[owner]? = some s → s.dirty = false →
        sys.fs.load entityName = some R →
        ∃ es sys', (∀ e ∈ es, e.ownedFrom owner sys.tasks.length) ∧
          System.run entityName computeTrustId es sys = some sys' ∧
          sys'.tasks = sys.tasks ++
            [⟨owner, .done (.ok .unit)⟩, ⟨owner, .done (.ok (.records R.values))⟩] := by
  obtain ⟨es, hrun⟩ := hreach
  have h : SharedFileWellFormed entityName sys :=
    SharedFileWellFormed.run (⟨hfile, htmp, none, nofun, nofun, nofun⟩ :
      SharedFileWellFormed entityName ⟨stores, fs, []⟩) hrun
  refine ⟨?_, fun owner s R hstore hclean hload => ?_⟩
  · obtain ⟨f, hf, hl⟩ := h.file
    obtain ⟨records, hrecords⟩ := Option.isSome_iff_exists.mp hl
    exact ⟨_, FileSystem.load_eq_some.mpr ⟨f, records, hf, hrecords, rfl⟩⟩
  · obtain ⟨es', hes', hrun'⟩ :=
      System.run_calls_alone entityName computeTrustId [.flushAndReload, .getAll none] sys hstore
    refine ⟨es', _, hes', hrun', ?_⟩
    simp [runCalls_reread computeTrustId hclean hload]

/-- Two stores over a file with no record. Each creates a record; the second writes its
map; the first starts `flushNow`, and while its write holds the lock its `getAll` reloads
the second store's file; then the first write renames its `.tmp` file. Every call
returns, both stores end clean, the file holds only the first store's record, and the
first store's next `getAll` still returns only the second's. -/
theorem concurrent_writes_lose_record :
    let computeTrustId := fun senderId receiverId : List Char => senderId ++ '→' :: receiverId
    let alice : TrustRecordInput := ⟨none, "alice$a.example".toList, "bob$b.example".toList,
      .accepted, "2025-01-01".toList, none, none, none⟩
    let carol : TrustRecordInput := ⟨none, "carol$c.example".toList, "bob$b.example".toList,
      .accepted, "2025-01-01".toList, none, none, none⟩
    let a := alice.withId (computeTrustId alice.senderId alice.receiverId)
    let c := carol.withId (computeTrustId carol.senderId carol.receiverId)
    (System.run [] computeTrustId
        ([.call 0 (.create alice none), .effect 0, .resume 0, .resume 0, .effect 0, .resume 0,
          .resume 0, .effect 0, .resume 0, .resume 0, .resume 0, .resume 0, .resume 0] ++
        [.call 1 (.create carol none), .effect 1, .resume 1, .resume 1, .effect 1, .resume 1,
          .resume 1, .effect 1, .resume 1, .resume 1, .resume 1, .resume 1, .resume 1] ++
        [.call 1 .flushNow, .effect 2, .resume 2, .effect 2, .resume 2, .effect 2, .resume 2,
          .effect 2, .resume 2, .effect 2, .resume 2, .resume 2] ++
        [.call 0 .flushNow, .effect 3, .resume 3, .effect 3, .resume 3] ++
        [.call 0 (.getAll none), .effect 4, .resume 4, .resume 4, .effect 4, .resume 4,
          .resume 4, .resume 4, .resume 4] ++
        [.effect 3, .resume 3, .effect 3, .resume 3, .effect 3, .resume 3, .resume 3] ++
        [.call 0 (.getAll none), .effect 5, .resume 5, .resume 5])
        ⟨[.fresh, .fresh], ⟨some ⟨.array [], 1⟩, none, false, 2⟩, []⟩).map
      (fun sys => (sys.fs.file.map fun f => f.contents.allRecords, sys.stores.map (·.dirty),
        sys.tasks.map (·.prog.returned))) =
    some (some [a], [false, false], [some (.record a), some (.record c), some .unit, some .unit,
      some (.records [c]), some (.records [c])]) := by
  decide

/-- One store over a file with no record: a create returns, the debounce timer fires and
its write awaits the lock, and a `flushNow()` called then returns at once. The file still
holds no record while the map holds the created one. -/
theorem flushNow_returns_before_write :
    (System.run [] (fun senderId receiverId => senderId ++ '→' :: receiverId)
        [.call 0 (.create ⟨none, "alice$a.example".toList, "bob$b.example".toList, .accepted,
            "2025-01-01".toList, none, none, none⟩ none),
          .effect 0, .resume 0, .resume 0, .effect 0, .resume 0, .resume 0, .effect 0, .resume 0,
          .resume 0, .resume 0, .resume 0, .resume 0,
          .call 0 .debouncedWrite, .call 0 .flushNow, .resume 2]
        ⟨[.fresh], ⟨some ⟨.array [], 1⟩, none, false, 2⟩, []⟩).map
      (fun sys => (sys.tasks.map (·.prog.returned.isSome), sys.fs.file,
        sys.stores.map fun s => s.recordMap.values.map (·.id))) =
    some ([true, false, true], some ⟨.array [], 1⟩, [["alice$a.example→bob$b.example".toList]]) := by
  decide

end Btps
