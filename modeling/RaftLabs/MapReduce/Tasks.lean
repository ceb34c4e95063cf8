import RaftLabs.MapReduce.Phases
import RaftLabs.MapReduce.Worker

/-! What the files of a distributed job hold.

A task may run many times, beside itself and beside the tasks that read what it writes. That is
harmless because every run renames files with the same pairs to the same names: once `mr-X-Y`
holds the pairs of its file and its part, it always does. So a finish message, once sent, stays
true (`Truthful`), and a reduce task, which is handed out only after the finishes of all map
tasks were accepted, finds the right pairs in every file it opens. -/
namespace RaftLabs.MapReduce
open Lib

/-! ### File names -/

theorem not_mem_itoaNat {n : Nat} {b : Fin 256} (hb : b.val < 48 ∨ 57 < b.val) :
    b ∉ GoString.itoaNat n := by
  intro hmem
  have := GoString.digit_mem_itoaNat hmem
  omega

/-- `mapOutput` and `reduceOutput` after their common beginning. -/
def mapEnding (X Y : Nat) : GoString := GoString.itoaNat X ++ GoString.dash :: GoString.itoaNat Y
def reduceEnding (Y : Nat) : GoString := GoString.lit "out-" ++ GoString.itoaNat Y

theorem mapOutput_eq (X Y : Nat) : mapOutput X Y = .lit "mr-" ++ mapEnding X Y := by
  have hdash : GoString.lit "-" = [GoString.dash] := by decide
  simp only [mapOutput, mapEnding, hdash, List.append_assoc, List.singleton_append]
  rfl

theorem reduceOutput_eq (Y : Nat) : reduceOutput Y = .lit "mr-" ++ reduceEnding Y := by
  have hlit : GoString.lit "mr-out-" = .lit "mr-" ++ .lit "out-" := by decide
  rw [reduceOutput, reduceEnding, hlit, List.append_assoc]
  rfl

theorem mapEnding_inj {X Y X' Y' : Nat} (h : mapEnding X Y = mapEnding X' Y') :
    X = X' ∧ Y = Y' := by
  obtain ⟨hX, hY⟩ := GoString.append_cons_inj (not_mem_itoaNat (by decide))
    (not_mem_itoaNat (by decide)) h
  exact ⟨GoString.itoaNat_injective hX, GoString.itoaNat_injective hY⟩

theorem reduceEnding_inj {Y Y' : Nat} (h : reduceEnding Y = reduceEnding Y') : Y = Y' :=
  GoString.itoaNat_injective (List.append_cancel_left h)

theorem mapEnding_ne_reduceEnding (X Y Y' : Nat) : mapEnding X Y ≠ reduceEnding Y' := by
  intro h
  obtain ⟨b, rest, hX⟩ := List.exists_cons_of_ne_nil (GoString.itoaNat_ne_nil X)
  have hlit : GoString.lit "out-" = [111, 117, 116, 45] := by decide
  rw [mapEnding, reduceEnding, hX, hlit] at h
  have hb : b = 111 := (List.cons.inj h).1
  have hdigit := GoString.digit_mem_itoaNat (n := X) (b := b) (hX ▸ List.mem_cons_self)
  rw [hb] at hdigit
  exact absurd hdigit.2 (by decide)

theorem slash_not_mem_mapEnding (X Y : Nat) : 47 ∉ mapEnding X Y := by
  simp only [mapEnding, List.mem_append, List.mem_cons, not_or]
  exact ⟨not_mem_itoaNat (by decide), by decide, not_mem_itoaNat (by decide)⟩

theorem slash_not_mem_reduceEnding (Y : Nat) : 47 ∉ reduceEnding Y := by
  simp only [reduceEnding, List.mem_append, not_or]
  exact ⟨by decide, not_mem_itoaNat (by decide)⟩

/-! ### What is assumed of a job -/

namespace Job
variable {Path : Type} (job : Job Path)

/-- The pairs that `mapf` emits for an input file. -/
def emitted (fileName : GoString) : List KeyValue :=
  (job.disk (job.resolve fileName)).elim [] (job.mapf fileName)

/-- The pairs of one reduce task. -/
def part (Y : Nat) (kvs : List KeyValue) : List KeyValue :=
  kvs.filter fun kv => ihash kv.key % job.nReduce.toNat = Y

/-- What a job may rely on: the input files are distinct, there is a reduce task, `reducef` does
not depend on the order of its values, reading a file gives back the emitted pairs that were
written to it, and different names in the working directory stand for different files, with or
without `./` before them. -/
structure Standard : Prop where
  nodup : job.files.Nodup
  nReduce_pos : 1 ≤ job.nReduce
  reducef_perm : ∀ k vs vs', vs.Perm vs' → job.reducef k vs = job.reducef k vs'
  decode_encode : ∀ kvs, (∀ kv ∈ kvs, ∃ fileName ∈ job.files, kv ∈ job.emitted fileName) →
    job.decode (kvs.flatMap job.encode) = kvs
  resolve_dot : ∀ s, 47 ∉ s →
    job.resolve (.lit "./" ++ (.lit "mr-" ++ s)) = job.resolve (.lit "mr-" ++ s)
  resolve_inj : ∀ s t, 47 ∉ s → 47 ∉ t →
    job.resolve (.lit "mr-" ++ s) = job.resolve (.lit "mr-" ++ t) → s = t

/-- No input file is one of the files that the job writes. -/
def SparesInputs : Prop :=
  ∀ fileName ∈ job.files, ∀ Y < job.nReduce.toNat,
    job.resolve fileName ≠ job.resolve (reduceOutput Y) ∧
    ∀ X < job.files.length, job.resolve fileName ≠ job.resolve (mapOutput X Y)

instance [DecidableEq Path] : Decidable job.SparesInputs :=
  inferInstanceAs (Decidable (∀ fileName ∈ job.files, ∀ Y < job.nReduce.toNat, _ ∧
    ∀ X < job.files.length, _))

variable {job} (hstd : job.Standard)
include hstd

theorem Standard.resolve_mapOutput (X Y : Nat) :
    job.resolve (.lit "./" ++ mapOutput X Y) = job.resolve (mapOutput X Y) := by
  rw [mapOutput_eq]
  exact hstd.resolve_dot _ (slash_not_mem_mapEnding X Y)

theorem Standard.resolve_reduceOutput (Y : Nat) :
    job.resolve (.lit "./" ++ reduceOutput Y) = job.resolve (reduceOutput Y) := by
  rw [reduceOutput_eq]
  exact hstd.resolve_dot _ (slash_not_mem_reduceEnding Y)

theorem Standard.mapOutput_inj {X Y X' Y' : Nat}
    (h : job.resolve (mapOutput X Y) = job.resolve (mapOutput X' Y')) : X = X' ∧ Y = Y' := by
  rw [mapOutput_eq, mapOutput_eq] at h
  exact mapEnding_inj (hstd.resolve_inj _ _ (slash_not_mem_mapEnding X Y)
    (slash_not_mem_mapEnding X' Y') h)

theorem Standard.reduceOutput_inj {Y Y' : Nat}
    (h : job.resolve (reduceOutput Y) = job.resolve (reduceOutput Y')) : Y = Y' := by
  rw [reduceOutput_eq, reduceOutput_eq] at h
  exact reduceEnding_inj (hstd.resolve_inj _ _ (slash_not_mem_reduceEnding Y)
    (slash_not_mem_reduceEnding Y') h)

theorem Standard.mapOutput_ne_reduceOutput (X Y Y' : Nat) :
    job.resolve (mapOutput X Y) ≠ job.resolve (reduceOutput Y') := by
  rw [mapOutput_eq, reduceOutput_eq]
  exact fun h => mapEnding_ne_reduceEnding X Y Y' (hstd.resolve_inj _ _
    (slash_not_mem_mapEnding X Y) (slash_not_mem_reduceEnding Y') h)

end Job

/-- The slices of a map task are its parts. -/
theorem kvlists_eq {Path : Type} {job : Job Path} (hpos : 1 ≤ job.nReduce) (kvs : List KeyValue) :
    ∃ lists, kvlists job.nReduce kvs = some lists ∧ lists.length = job.nReduce.toNat ∧
      ∀ Y l, lists[Y]? = some l → l = job.part Y kvs := by
  refine ⟨_, if_neg (by omega), ?_, ?_⟩
  · rw [Grouping.length_foldl_modify (fun kv : KeyValue => ihash kv.key % job.nReduce.toNat),
      List.length_replicate]
  · intro Y l hl
    rw [Grouping.getElem?_foldl_modify (fun kv : KeyValue => ihash kv.key % job.nReduce.toNat),
      List.getElem?_replicate] at hl
    split at hl
    · simpa [Job.part] using hl.symm
    · simp at hl

/-! ### What the files hold -/

/-- The finish that a message reports. -/
def Args.reports (args : Args) : Option Coordinator.Finish :=
  match args.reqType with
  | .mapFinishRequest => some (.map args.mapFinishedFileName)
  | .reduceFinishRequest => some (.reduce args.reduceFinishedTaskId)
  | _ => none

theorem Coordinator.reports_of_accepts {c : Coordinator} {args : Args} {finish : Finish}
    (h : c.accepts args = some finish) : args.reports = some finish := by
  unfold accepts at h
  unfold Args.reports
  cases hreq : args.reqType <;> simp_all

namespace Job
variable {Path : Type} (job : Job Path) (disk disk' : Path → Option GoString)

/-- The file `mr-X-Y` of an input file holds the pairs of its part. -/
def Written (fileName : GoString) (Y : Nat) : Prop :=
  ∃ (X : Nat) (kvs : List KeyValue), job.files[X]? = some fileName ∧
    (job.disk (job.resolve fileName)).isSome ∧
    disk (job.resolve (mapOutput X Y)) = some (kvs.flatMap job.encode) ∧
    kvs.Perm (job.part Y (job.emitted fileName))

/-- The file `mr-out-Y` holds what `reducef` makes of the part. -/
def Reduced (Y : Nat) : Prop :=
  ∃ (order : RangeOrder GoString) (kvs : List KeyValue),
    disk (job.resolve (reduceOutput Y)) =
      some (job.reduceText order (collect GoMap.empty kvs)) ∧
    kvs.Perm (job.part Y (job.files.flatMap job.emitted))

/-- The task of a finish has left its files. -/
def Truthful : Coordinator.Finish → Prop
  | .map fileName => ∀ Y < job.nReduce.toNat, job.Written disk fileName Y
  | .reduce taskId => ∃ Y : Nat, taskId = Y ∧ job.Reduced disk Y

/-- What a map worker knows about its task. -/
def SoundMapper : MapWorker → Prop
  | .requesting => True
  | .assigned fileName taskId nReduce =>
    nReduce = job.nReduce ∧ ∃ X : Nat, job.files[X]? = some fileName ∧ taskId = X
  | .writing fileName taskId index lists =>
    (∃ X : Nat, job.files[X]? = some fileName ∧ taskId = X) ∧
    (job.disk (job.resolve fileName)).isSome ∧
    index + lists.length = job.nReduce.toNat ∧
    (∀ Y < index, job.Written disk fileName Y) ∧
    ∀ (Y : Nat) (l : List KeyValue), lists[Y]? = some l →
      l.Perm (job.part (index + Y) (job.emitted fileName))
  | .stopped => True

/-- What a reduce worker knows about its task. -/
def SoundReducer : ReduceWorker → Prop
  | .requesting => True
  | .reading taskId nFile X result =>
    job.files ≠ [] ∧ nFile = job.files.length ∧ X ≤ job.files.length ∧
    ∃ Y < job.nReduce.toNat, taskId = (Y : Nat) ∧
      (∀ fileName ∈ job.files, job.Written disk fileName Y) ∧
      ∃ kvs : List KeyValue, result = collect GoMap.empty kvs ∧
        kvs.Perm (job.part Y ((job.files.take X).flatMap job.emitted))
  | .finishing taskId => job.Truthful disk (.reduce taskId)
  | .stopped => True

/-- A change of the files that spoils nothing, by a worker that was given a task. -/
structure Keeps : Prop where
  files_ne : job.files ≠ []
  input : ∀ fileName ∈ job.files, disk' (job.resolve fileName) = disk (job.resolve fileName)
  written : ∀ fileName Y, job.Written disk fileName Y → job.Written disk' fileName Y
  reduced : ∀ Y, job.Reduced disk Y → job.Reduced disk' Y

variable {job disk disk'}

section Keeps
variable (h : job.Keeps disk disk')
include h

theorem Keeps.truthful {finish : Coordinator.Finish} (ht : job.Truthful disk finish) :
    job.Truthful disk' finish := by
  cases finish with
  | map fileName => exact fun Y hY => h.written fileName Y (ht Y hY)
  | reduce taskId =>
    obtain ⟨Y, hY, hreduced⟩ := ht
    exact ⟨Y, hY, h.reduced Y hreduced⟩

theorem Keeps.soundMapper {s : MapWorker} (hs : job.SoundMapper disk s) :
    job.SoundMapper disk' s := by
  cases s with
  | requesting => trivial
  | assigned fileName taskId nReduce => exact hs
  | writing fileName taskId index lists =>
    obtain ⟨htask, hopened, hlength, hwritten, hlists⟩ := hs
    exact ⟨htask, hopened, hlength, fun Y hY => h.written fileName Y (hwritten Y hY), hlists⟩
  | stopped => trivial

theorem Keeps.soundReducer {s : ReduceWorker} (hs : job.SoundReducer disk s) :
    job.SoundReducer disk' s := by
  cases s with
  | requesting => trivial
  | reading taskId nFile X result =>
    obtain ⟨hne, hnFile, hX, Y, hY, htask, hwritten, hresult⟩ := hs
    exact ⟨hne, hnFile, hX, Y, hY, htask,
      fun fileName hmem => h.written fileName Y (hwritten fileName hmem), hresult⟩
  | finishing taskId =>
    have htruthful : job.Truthful disk (.reduce taskId) := hs
    exact h.truthful htruthful
  | stopped => trivial

end Keeps

/-! ### What a rename does -/

section Rename
variable [DecidableEq Path] (hstd : job.Standard) (hspares : job.SparesInputs)
include hstd hspares

/-- A map worker's rename writes the file of its part, and keeps every other. -/
theorem keeps_mapOutput (disk : Path → Option GoString) {X Y : Nat} {fileName : GoString}
    {kvs : List KeyValue}
    (hX : job.files[X]? = some fileName) (hopened : (job.disk (job.resolve fileName)).isSome)
    (hY : Y < job.nReduce.toNat) (hkvs : kvs.Perm (job.part Y (job.emitted fileName))) :
    job.Keeps disk (Function.update disk (job.resolve (mapOutput X Y))
      (some (kvs.flatMap job.encode))) ∧
    job.Written (Function.update disk (job.resolve (mapOutput X Y))
      (some (kvs.flatMap job.encode))) fileName Y := by
  have hnew : job.Written (Function.update disk (job.resolve (mapOutput X Y))
      (some (kvs.flatMap job.encode))) fileName Y :=
    ⟨X, kvs, hX, hopened, Function.update_self .., hkvs⟩
  refine ⟨⟨List.ne_nil_of_mem (List.mem_of_getElem? hX), ?_, ?_, ?_⟩, hnew⟩
  · intro f hf
    have hlt : X < job.files.length := (List.getElem?_eq_some_iff.mp hX).1
    exact Function.update_of_ne ((hspares f hf Y hY).2 X hlt) ..
  · rintro f Y' ⟨X', kvs', hX', hopened', hdisk, hkvs'⟩
    -- the same name is the same task and part, whose pairs are written once more
    by_cases hname : job.resolve (mapOutput X' Y') = job.resolve (mapOutput X Y)
    · obtain ⟨rfl, rfl⟩ := hstd.mapOutput_inj hname
      obtain rfl : f = fileName := Option.some.inj (hX'.symm.trans hX)
      exact hnew
    · exact ⟨X', kvs', hX', hopened', (Function.update_of_ne hname ..).trans hdisk, hkvs'⟩
  · rintro Y' ⟨order, kvs', hdisk, hkvs'⟩
    refine ⟨order, kvs', ?_, hkvs'⟩
    rw [Function.update_of_ne (hstd.mapOutput_ne_reduceOutput X Y Y').symm]
    exact hdisk

/-- A reduce worker's rename writes the output of its part, and keeps every other file. -/
theorem keeps_reduceOutput (disk : Path → Option GoString) (order : RangeOrder GoString) {Y : Nat}
    {kvs : List KeyValue}
    (hne : job.files ≠ []) (hY : Y < job.nReduce.toNat)
    (hkvs : kvs.Perm (job.part Y (job.files.flatMap job.emitted))) :
    job.Keeps disk (Function.update disk (job.resolve (reduceOutput Y))
      (some (job.reduceText order (collect GoMap.empty kvs)))) ∧
    job.Reduced (Function.update disk (job.resolve (reduceOutput Y))
      (some (job.reduceText order (collect GoMap.empty kvs)))) Y := by
  have hnew : job.Reduced (Function.update disk (job.resolve (reduceOutput Y))
      (some (job.reduceText order (collect GoMap.empty kvs)))) Y :=
    ⟨order, kvs, Function.update_self .., hkvs⟩
  refine ⟨⟨hne, ?_, ?_, ?_⟩, hnew⟩
  · intro f hf
    exact Function.update_of_ne (hspares f hf Y hY).1 ..
  · rintro f Y' ⟨X', kvs', hX', hopened', hdisk, hkvs'⟩
    refine ⟨X', kvs', hX', hopened', ?_, hkvs'⟩
    rw [Function.update_of_ne (hstd.mapOutput_ne_reduceOutput X' Y' Y)]
    exact hdisk
  · rintro Y' ⟨order', kvs', hdisk, hkvs'⟩
    by_cases hname : job.resolve (reduceOutput Y') = job.resolve (reduceOutput Y)
    · obtain rfl := hstd.reduceOutput_inj hname
      exact hnew
    · exact ⟨order', kvs', (Function.update_of_ne hname ..).trans hdisk, hkvs'⟩

end Rename

/-! ### The invariant -/

/-- The files, the coordinator, the workers and the messages agree. -/
structure Sound (job : Job Path) (w : World Path) : Prop where
  untouched : job.files = [] → w.disk = job.disk
  input : ∀ fileName ∈ job.files, w.disk (job.resolve fileName) = job.disk (job.resolve fileName)
  nfile : w.coordinator.nfile = job.files.length
  index : ∀ (X : Nat) (fileName : GoString), job.files[X]? = some fileName →
    w.coordinator.files.getD fileName 0 = X
  phased : ∃ accepted, Coordinator.Phased job.files job.nReduce w.coordinator accepted ∧
    ∀ finish ∈ accepted, job.Truthful w.disk finish
  mappers : ∀ i, job.SoundMapper w.disk (w.mappers i)
  reducers : ∀ i, job.SoundReducer w.disk (w.reducers i)
  sent : ∀ args ∈ w.sent, ∀ finish, args.reports = some finish → job.Truthful w.disk finish

variable {w : World Path}

theorem Sound.setMapper (h : job.Sound w) {i : Nat} {s : MapWorker}
    (hs : job.SoundMapper w.disk s) : job.Sound (w.setMapper i s) where
  __ := h
  mappers j := by
    by_cases hj : j = i
    · subst hj
      simpa [World.setMapper] using hs
    · simpa [World.setMapper, hj] using h.mappers j

theorem Sound.setReducer (h : job.Sound w) {i : Nat} {s : ReduceWorker}
    (hs : job.SoundReducer w.disk s) : job.Sound (w.setReducer i s) where
  __ := h
  reducers j := by
    by_cases hj : j = i
    · subst hj
      simpa [World.setReducer] using hs
    · simpa [World.setReducer, hj] using h.reducers j

theorem Sound.rename [DecidableEq Path] (h : job.Sound w) {path : Path} {content : GoString}
    (hkeeps : job.Keeps w.disk (Function.update w.disk path (some content))) :
    job.Sound (w.rename path content) where
  untouched hnil := absurd hnil hkeeps.files_ne
  input fileName hmem := (hkeeps.input fileName hmem).trans (h.input fileName hmem)
  nfile := h.nfile
  index := h.index
  phased := by
    obtain ⟨accepted, hphased, htruthful⟩ := h.phased
    exact ⟨accepted, hphased, fun finish hmem => hkeeps.truthful (htruthful finish hmem)⟩
  mappers i := hkeeps.soundMapper (h.mappers i)
  reducers i := hkeeps.soundReducer (h.reducers i)
  sent args hmem finish hreports := hkeeps.truthful (h.sent args hmem finish hreports)

theorem Sound.send (h : job.Sound w) {args : Args}
    (hargs : ∀ finish, args.reports = some finish → job.Truthful w.disk finish) :
    job.Sound (w.send args) where
  __ := h
  sent args' hmem := by
    rcases List.mem_append.mp hmem with hmem | hmem
    · exact h.sent args' hmem
    · rw [List.mem_singleton.mp hmem]
      exact hargs

/-- The coordinator accepts only what is true. -/
theorem Sound.dispatch (h : job.Sound w) (m : Moment) {args : Args}
    (hargs : ∀ finish, args.reports = some finish → job.Truthful w.disk finish) :
    job.Sound (w.dispatch m args) := by
  have hhandles := Coordinator.dispatchTask_handles m w.coordinator args
  obtain ⟨hnfile, hfiles⟩ := hhandles.constant
  obtain ⟨accepted, hphased, htruthful⟩ := h.phased
  exact {
    h with
    nfile := hnfile.trans h.nfile
    index := fun X fileName hX =>
      (congrArg (·.getD fileName 0) hfiles).trans (h.index X fileName hX)
    phased := by
      refine ⟨_, hphased.handles hhandles, fun finish hmem => ?_⟩
      -- what is accepted now is what the message reports
      rcases List.mem_append.mp hmem with hmem | hmem
      · exact htruthful finish hmem
      · exact hargs finish (Coordinator.reports_of_accepts (Option.mem_toList.mp hmem)) }

/-! ### Being given a task -/

theorem Sound.receive_mapper (h : job.Sound w) (m : Moment) {args : Args}
    (hreq : args.reqType = .mapRequest) :
    job.SoundMapper w.disk (.receive (w.coordinator.dispatchTask m args).2) := by
  obtain ⟨accepted, hphased, -⟩ := h.phased
  rw [MapWorker.receive]
  split
  · trivial
  · split
    · trivial
    · rename_i hcode
      obtain ⟨hmem, hid⟩ :=
        (Coordinator.dispatchTask_handles m w.coordinator args).mem_mTasks hreq hcode
      obtain ⟨X, hX⟩ := List.mem_iff_getElem?.mp ((hphased.mapping _).mp hmem).1
      refine ⟨?_, X, hX, hid.trans (h.index X _ hX)⟩
      rw [(Coordinator.dispatchTask_reply m w.coordinator args).2.1, hphased.nReduce_eq]

theorem Sound.receive_reducer (h : job.Sound w) (m : Moment) {args : Args}
    (hreq : args.reqType = .reduceRequest) :
    job.SoundReducer w.disk (.receive (w.coordinator.dispatchTask m args).2) := by
  obtain ⟨accepted, hphased, htruthful⟩ := h.phased
  rw [ReduceWorker.receive]
  split
  · trivial
  · split
    · trivial
    · rename_i hcode
      obtain ⟨hnone, hmem⟩ :=
        (Coordinator.dispatchTask_handles m w.coordinator args).mem_rTasks hreq hcode
      have hne := hphased.files_ne_of_mem_rTasks hmem
      obtain ⟨hmaps, hnonneg, hlt, -⟩ := hphased.of_mem_rTasks hnone hmem
      obtain ⟨Y, hY⟩ := Int.eq_ofNat_of_zero_le hnonneg
      refine ⟨hne, ?_, Nat.zero_le _, Y, by omega, hY, ?_, [], rfl, .nil⟩
      · rw [(Coordinator.dispatchTask_reply m w.coordinator args).1, h.nfile]
      · intro fileName hfile
        exact htruthful _ (hmaps fileName hfile) Y (by omega)
  · trivial

/-! ### Working on a task -/

theorem part_append (Y : Nat) (kvs kvs' : List KeyValue) :
    job.part Y (kvs ++ kvs') = job.part Y kvs ++ job.part Y kvs' :=
  List.filter_append ..

theorem collect_append (result : GoMap GoString (List GoString)) (kvs kvs' : List KeyValue) :
    collect result (kvs ++ kvs') = collect (collect result kvs) kvs' :=
  List.foldl_append

theorem emitted_of_disk {fileName content : GoString}
    (hdisk : job.disk (job.resolve fileName) = some content) :
    job.emitted fileName = job.mapf fileName content := by
  rw [emitted, hdisk, Option.elim_some]

theorem soundMapper_mapTask (hstd : job.Standard) {byKey : ByKey} {fileName : GoString}
    {taskId nReduce : Int} (hinput : disk (job.resolve fileName) = job.disk (job.resolve fileName))
    (hs : job.SoundMapper disk (.assigned fileName taskId nReduce)) :
    job.SoundMapper disk (job.mapTask byKey disk fileName taskId nReduce) := by
  obtain ⟨rfl, htask⟩ := hs
  rw [mapTask, hinput]
  cases hdisk : job.disk (job.resolve fileName) with
  | none => trivial
  | some content =>
    obtain ⟨lists, hlists, hlength, hparts⟩ :=
      kvlists_eq hstd.nReduce_pos (byKey.sort (job.mapf fileName content))
    simp only [hlists]
    refine ⟨htask, by rw [hdisk]; rfl, by omega, fun Y hY => absurd hY (Nat.not_lt_zero Y), ?_⟩
    intro Y l hl
    rw [hparts Y l hl, Nat.zero_add, emitted_of_disk hdisk]
    exact (byKey.perm _).filter _

/-- Every pair of a written file was emitted for its input file. -/
theorem Standard.decode_written (hstd : job.Standard) {X Y : Nat} {fileName : GoString}
    (hX : job.files[X]? = some fileName) (hwritten : job.Written disk fileName Y) :
    ∃ kvs : List KeyValue, (disk (job.resolve (mapOutput X Y))).map job.decode = some kvs ∧
      kvs.Perm (job.part Y (job.emitted fileName)) := by
  obtain ⟨X', kvs, hX', -, hdisk, hkvs⟩ := hwritten
  -- the files are distinct, so the file stands at one index only
  obtain rfl : X' = X :=
    (List.getElem?_inj (List.getElem?_eq_some_iff.mp hX').1 hstd.nodup).mp (hX'.trans hX.symm)
  have hdecode : job.decode (kvs.flatMap job.encode) = kvs := by
    refine hstd.decode_encode kvs fun kv hkv => ⟨fileName, List.mem_of_getElem? hX', ?_⟩
    exact (List.mem_filter.mp (hkvs.mem_iff.mp hkv)).1
  exact ⟨kvs, by rw [hdisk, Option.map_some, hdecode], hkvs⟩

theorem soundReducer_readTask (hstd : job.Standard) {taskId nFile : Int} {X : Nat}
    {result : GoMap GoString (List GoString)} (hmore : (X : Int) < nFile)
    (hs : job.SoundReducer disk (.reading taskId nFile X result)) :
    job.SoundReducer disk (job.readTask disk taskId nFile X result) := by
  obtain ⟨hne, rfl, -, Y, hY, rfl, hwritten, kvs, rfl, hkvs⟩ := hs
  have hX : X < job.files.length := by omega
  have hget : job.files[X]? = some job.files[X] := List.getElem?_eq_getElem hX
  obtain ⟨kvs', hdecode, hkvs'⟩ :=
    hstd.decode_written hget (hwritten _ (List.getElem_mem hX))
  obtain ⟨content, hdisk, hcontent⟩ := Option.map_eq_some_iff.mp hdecode
  rw [readTask, hdisk]
  -- the pairs read so far are those of the first files, and one file is added
  refine ⟨hne, rfl, hX, Y, hY, rfl, hwritten, kvs ++ kvs', ?_, ?_⟩
  · rw [hcontent, collect_append]
  · rw [List.take_add_one, hget, List.flatMap_append, part_append]
    simpa using hkvs.append hkvs'

/-! ### Every run -/

section Run
variable [DecidableEq Path] (hstd : job.Standard) (hspares : job.SparesInputs)
include hstd hspares

theorem Sound.mapRename (h : job.Sound w) {i index : Nat} {fileName : GoString} {taskId : Int}
    {kvlist : List KeyValue} {rest : List (List KeyValue)}
    (hi : w.mappers i = .writing fileName taskId index (kvlist :: rest)) :
    job.Sound ((w.rename (job.resolve (.lit "./" ++ mapOutput taskId index))
      (kvlist.flatMap job.encode)).setMapper i (.writing fileName taskId (index + 1) rest)) := by
  have hs := h.mappers i
  rw [hi] at hs
  obtain ⟨⟨X, hX, rfl⟩, hopened, hlength, hwritten, hlists⟩ := hs
  rw [List.length_cons] at hlength
  rw [hstd.resolve_mapOutput]
  obtain ⟨hkeeps, hnew⟩ := keeps_mapOutput hstd hspares w.disk hX hopened
    (Y := index) (by omega) (hlists 0 kvlist rfl)
  refine (h.rename hkeeps).setMapper ⟨⟨X, hX, rfl⟩, hopened, by omega, ?_, ?_⟩
  · intro Y hY
    rcases Nat.lt_succ_iff_lt_or_eq.mp hY with hY | rfl
    · exact hkeeps.written fileName Y (hwritten Y hY)
    · exact hnew
  · intro Y l hl
    rw [Nat.add_right_comm]
    exact hlists (Y + 1) l hl

theorem Sound.reduceRename (h : job.Sound w) {i X : Nat} {taskId nFile : Int}
    {result : GoMap GoString (List GoString)} (order : RangeOrder GoString)
    (hi : w.reducers i = .reading taskId nFile X result) (hend : ¬ (X : Int) < nFile) :
    job.Sound ((w.rename (job.resolve (.lit "./" ++ reduceOutput taskId))
      (job.reduceText order result)).setReducer i (.finishing taskId)) := by
  have hs := h.reducers i
  rw [hi] at hs
  obtain ⟨hne, rfl, hX, Y, hY, rfl, hwritten, kvs, rfl, hkvs⟩ := hs
  rw [List.take_of_length_le (by omega)] at hkvs
  rw [hstd.resolve_reduceOutput]
  obtain ⟨hkeeps, hnew⟩ :=
    keeps_reduceOutput hstd hspares w.disk order hne hY hkvs
  exact (h.rename hkeeps).setReducer ⟨Y, rfl, hnew⟩

omit hspares in
theorem sound_init (clock : Nat → Int) : job.Sound (job.system clock).init where
  untouched _ := rfl
  input _ _ := rfl
  nfile := rfl
  index _ _ hX := Coordinator.getD_makeCoordinator hstd.nodup hX
  phased := ⟨[], Coordinator.phased_makeCoordinator clock, by simp⟩
  mappers _ := trivial
  reducers _ := trivial
  sent := by simp [system]

theorem Sound.step (h : job.Sound w) {a : Action} {w' : World Path}
    (hstep : job.step w a = some w') : job.Sound w' := by
  cases a with
  | mapRequest i m =>
    simp only [Job.step] at hstep
    split at hstep <;> cases hstep
    exact (h.dispatch m (by simp [Args.reports])).setMapper (h.receive_mapper m rfl)
  | mapRead i byKey =>
    simp only [Job.step] at hstep
    split at hstep <;> cases hstep
    rename_i fileName taskId nReduce hi
    have hs := h.mappers i
    rw [hi] at hs
    obtain ⟨-, X, hX, -⟩ := id hs
    exact h.setMapper (soundMapper_mapTask hstd (h.input _ (List.mem_of_getElem? hX)) hs)
  | mapRename i =>
    simp only [Job.step] at hstep
    split at hstep <;> cases hstep
    exact h.mapRename hstd hspares ‹_›
  | mapFinish i =>
    simp only [Job.step] at hstep
    split at hstep <;> cases hstep
    rename_i fileName taskId index hi
    have hs := h.mappers i
    rw [hi] at hs
    obtain ⟨-, -, hlength, hwritten, -⟩ := hs
    refine Sound.setMapper (h.send ?_) trivial
    rintro finish ⟨⟩ Y hY
    exact hwritten Y (hY.trans_eq hlength.symm)
  | mapCrash i =>
    cases hstep
    exact h.setMapper trivial
  | reduceRequest i m =>
    simp only [Job.step] at hstep
    split at hstep <;> cases hstep
    exact (h.dispatch m (by simp [Args.reports])).setReducer (h.receive_reducer m rfl)
  | reduceRead i =>
    simp only [Job.step] at hstep
    split at hstep
    · split at hstep <;> cases hstep
      rename_i hi hmore
      exact h.setReducer (soundReducer_readTask hstd hmore (hi ▸ h.reducers i))
    · cases hstep
  | reduceRename i order =>
    simp only [Job.step] at hstep
    split at hstep
    · split at hstep <;> cases hstep
      exact h.reduceRename hstd hspares order ‹_› ‹_›
    · cases hstep
  | reduceFinish i =>
    simp only [Job.step] at hstep
    split at hstep <;> cases hstep
    rename_i taskId hi
    have hs := h.reducers i
    rw [hi] at hs
    refine Sound.setReducer (h.send ?_) trivial
    rintro finish ⟨⟩
    exact hs
  | reduceCrash i =>
    cases hstep
    exact h.setReducer trivial
  | deliver message m =>
    obtain ⟨args, hargs, rfl⟩ := Option.map_eq_some_iff.mp hstep
    exact h.dispatch m (h.sent args (List.mem_of_getElem? hargs))

theorem sound_of_reach {clock : Nat → Int}
    (h : System.Reach (job.system clock) System.anyStep w) : job.Sound w :=
  h.invariant (sound_init hstd clock) fun _ _ _ _ hsound _ hstep =>
    hsound.step hstd hspares hstep

/-- When the job is done, every input was read and every output is written. -/
theorem reduced_of_done {clock : Nat → Int} (hfiles : job.files ≠ [])
    (h : System.Reach (job.system clock) System.anyStep w) (hdone : w.coordinator.done = true) :
    (∀ fileName ∈ job.files, (job.disk (job.resolve fileName)).isSome) ∧
      ∀ Y < job.nReduce.toNat, job.Reduced w.disk Y := by
  obtain ⟨accepted, hphased, htruthful⟩ := (sound_of_reach hstd hspares h).phased
  obtain ⟨hmaps, hreduces⟩ := (hphased.done_iff_accepted hfiles).mp hdone
  constructor
  · intro fileName hfile
    have hpos := hstd.nReduce_pos
    obtain ⟨-, -, -, hopened, -⟩ := htruthful _ (hmaps fileName hfile) 0 (by omega)
    exact hopened
  · intro Y hY
    obtain ⟨Y', heq, hreduced⟩ := htruthful _ (hreduces Y (by omega) (by omega))
    obtain rfl : Y = Y' := by omega
    exact hreduced

end Run
end Job
end RaftLabs.MapReduce
